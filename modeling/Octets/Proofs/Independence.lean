import Octets.Proofs.Length
import Octets.Proofs.Refinement

/-!
# Independence of the place

What an operation answers, and what it writes, depends on the bytes that its buffers show and on
nothing else: not on the blocks in which they lie, nor on whether they overlap. Two stores in which
the buffers of an operation show the same bytes are therefore as good as each other, in
particular one in which the buffers overlap and one in which each is a block of its own.
-/

namespace Octets

open Octets.Action (outcome)

variable {α ω : Type} {s t : Store} {v w : Window}

/-- A window of one store and a window of another one show the same bytes. -/
structure ShowSame (s t : Store) (v w : Window) : Prop where
  holds_left : s.Holds v
  holds_right : t.Holds w
  read_eq : s.read v = t.read w

namespace ShowSame

theorem length_eq (h : ShowSame s t v w) : v.length = w.length := by
  rw [← Store.length_read h.holds_left, h.read_eq, Store.length_read h.holds_right]

end ShowSame

/-! ## Runs that end alike -/

/-- Two runs end with the same result or in the same stop, and then two windows show the same
bytes. -/
def EndAlike (v w : Window) : EStateM.Result Stop Store α → EStateM.Result Stop Store α → Prop
  | .ok a s, .ok b t => a = b ∧ s.read v = t.read w
  | .error x s, .error y t => x = y ∧ s.read v = t.read w
  | _, _ => False

/-- Two runs make buffers that show the same bytes, or end in the same stop. -/
def MakeAlike : EStateM.Result Stop Store Window → EStateM.Result Stop Store Window → Prop
  | .ok v s, .ok w t => s.read v = t.read w
  | .error x _, .error y _ => x = y
  | _, _ => False

/-- Computations that leave the stores as they are. -/
theorem endAlike_outcome (h : ShowSame s t v w) (r : Except Stop α) :
    EndAlike v w (outcome r s) (outcome r t) := by
  cases r with
  | ok a => exact ⟨rfl, h.read_eq⟩
  | error stop => exact ⟨rfl, h.read_eq⟩

/-- Edits that give the same bytes, as many as there were. -/
theorem endAlike_settle (h : ShowSame s t v w) {r : Except Stop (Bytes × α)}
    (hlen : ∀ new a, r = .ok (new, a) → new.length = (s.read v).length) :
    EndAlike v w (s.settle v r) (t.settle w r) := by
  cases r with
  | ok result =>
    obtain ⟨new, a⟩ := result
    have hnew : new.length = v.length := by
      rw [hlen new a rfl, Store.length_read h.holds_left]
    refine ⟨rfl, ?_⟩
    rw [Store.read_write_self h.holds_left hnew,
      Store.read_write_self h.holds_right (by rw [hnew, h.length_eq])]
  | error stop => exact ⟨rfl, h.read_eq⟩

/-- New blocks with the same bytes. -/
theorem makeAlike_added (s t : Store) (r : Except Stop Bytes) :
    MakeAlike (s.added r) (t.added r) := by
  cases r with
  | ok content => simp [MakeAlike]
  | error stop => rfl

/-! ## Operations in two stores -/

section

variable {f g : ω → Window}

theorem Query.endAlike_ask {q : Query ω} {x : ω}
    (h : ∀ y ∈ x :: q.buffers, ShowSame s t (f y) (g y)) :
    EndAlike (f x) (g x) (((q.map f).ask (f x)).run s) (((q.map g).ask (g x)).run t) := by
  have hx := h x List.mem_cons_self
  have hq : ∀ y ∈ q.buffers, ShowSame s t (f y) (g y) := fun y hy =>
    h y (List.mem_cons_of_mem x hy)
  have hseen : q.map (s.read ∘ f) = q.map (t.read ∘ g) :=
    map_congr fun y hy => (hq y hy).read_eq
  rw [run_ask _ hx.holds_left (by simpa using fun y hy => (hq y hy).holds_left),
    run_ask _ hx.holds_right (by simpa using fun y hy => (hq y hy).holds_right),
    map_map, map_map, hseen, hx.read_eq]
  exact endAlike_outcome hx _

theorem Edit.endAlike_perform {e : Edit ω} {x : ω}
    (h : ∀ y ∈ x :: e.buffers, ShowSame s t (f y) (g y)) :
    EndAlike (f x) (g x) (((e.map f).perform (f x)).run s) (((e.map g).perform (g x)).run t) := by
  have hx := h x List.mem_cons_self
  have he : ∀ y ∈ e.buffers, ShowSame s t (f y) (g y) := fun y hy =>
    h y (List.mem_cons_of_mem x hy)
  have hseen : e.map (s.read ∘ f) = e.map (t.read ∘ g) :=
    map_congr fun y hy => (he y hy).read_eq
  rw [run_perform _ hx.holds_left (by simpa using fun y hy => (he y hy).holds_left),
    run_perform _ hx.holds_right (by simpa using fun y hy => (he y hy).holds_right),
    map_map, map_map, hseen, ← hx.read_eq]
  exact endAlike_settle hx fun new reply happly => length_apply happly

theorem Window.makeAlike_concat {parts : List ω} {totalLength : Value ω}
    (h : ∀ y ∈ parts ++ totalLength.buffers, ShowSame s t (f y) (g y)) :
    MakeAlike ((concat (parts.map f) (totalLength.map f)).run s)
      ((concat (parts.map g) (totalLength.map g)).run t) := by
  have hparts : ∀ y ∈ parts, ShowSame s t (f y) (g y) := fun y hy =>
    h y (List.mem_append_left _ hy)
  have htotal : ∀ y ∈ totalLength.buffers, ShowSame s t (f y) (g y) := fun y hy =>
    h y (List.mem_append_right _ hy)
  have hseen : parts.map (s.read ∘ f) = parts.map (t.read ∘ g) :=
    List.map_congr_left fun y hy => (hparts y hy).read_eq
  have hlength : totalLength.map (s.read ∘ f) = totalLength.map (t.read ∘ g) :=
    Value.map_congr fun y hy => (htotal y hy).read_eq
  rw [run_concat (by simpa using fun y hy => (hparts y hy).holds_left)
      (by simpa using fun y hy => (htotal y hy).holds_left),
    run_concat (by simpa using fun y hy => (hparts y hy).holds_right)
      (by simpa using fun y hy => (htotal y hy).holds_right),
    List.map_map, List.map_map, Value.map_map, Value.map_map, hseen, hlength]
  exact makeAlike_added s t _

end

/-- Two stores in which the buffers of an operation show pairwise the same bytes give the same
answer or the same stop, and the same bytes in the buffer that is written or made. The buffers are
placed by `f` in the one store and by `g` in the other; either may put them anywhere. -/
theorem operations_endAlike (s t : Store) (f g : ω → Window) :
    (∀ (q : Query ω) (x : ω), (∀ y ∈ x :: q.buffers, ShowSame s t (f y) (g y)) →
      EndAlike (f x) (g x) (((q.map f).ask (f x)).run s) (((q.map g).ask (g x)).run t)) ∧
    (∀ (e : Edit ω) (x : ω), (∀ y ∈ x :: e.buffers, ShowSame s t (f y) (g y)) →
      EndAlike (f x) (g x) (((e.map f).perform (f x)).run s)
        (((e.map g).perform (g x)).run t)) ∧
    ∀ (parts : List ω) (totalLength : Value ω),
      (∀ y ∈ parts ++ totalLength.buffers, ShowSame s t (f y) (g y)) →
      MakeAlike ((Window.concat (parts.map f) (totalLength.map f)).run s)
        ((Window.concat (parts.map g) (totalLength.map g)).run t) :=
  ⟨fun _ _ h => Query.endAlike_ask h, fun _ _ h => Edit.endAlike_perform h,
    fun _ _ h => Window.makeAlike_concat h⟩

/-- Two overlapping windows of one block, and two blocks that show the same bytes: compared, copied
one into the other, and joined. -/
theorem operations_endAlike_overlap :
    let s : Store := ⟨[[1, 2, 3, 4]]⟩
    let t : Store := ⟨[[2, 3, 4], [1, 2, 3]]⟩
    let compared := ((Query.compare ⟨0, 0, 3⟩).ask ⟨0, 1, 3⟩).run s
    let compared' := ((Query.compare ⟨1, 0, 3⟩).ask ⟨0, 0, 3⟩).run t
    let copied := ((Edit.copyRange ⟨0, 0, 3⟩ 0 0 3).perform ⟨0, 1, 3⟩).run s
    let copied' := ((Edit.copyRange ⟨1, 0, 3⟩ 0 0 3).perform ⟨0, 0, 3⟩).run t
    let joined := (Window.concat [⟨0, 1, 3⟩, ⟨0, 0, 3⟩] .undefined).run s
    let joined' := (Window.concat [⟨0, 0, 3⟩, ⟨1, 0, 3⟩] .undefined).run t
    (EndAlike ⟨0, 1, 3⟩ ⟨0, 0, 3⟩ compared compared' ∧
      EndAlike ⟨0, 1, 3⟩ ⟨0, 0, 3⟩ copied copied' ∧ MakeAlike joined joined') ∧
    (compared = .ok (.order .gt) s ∧ compared' = .ok (.order .gt) t) ∧
    (copied = .ok (.natural 3) ⟨[[1, 1, 2, 3]]⟩ ∧
      copied' = .ok (.natural 3) ⟨[[1, 2, 3], [1, 2, 3]]⟩) ∧
    joined = .ok ⟨1, 0, 6⟩ ⟨[[1, 2, 3, 4], [2, 3, 4, 1, 2, 3]]⟩ ∧
      joined' = .ok ⟨2, 0, 6⟩ ⟨[[2, 3, 4], [1, 2, 3], [2, 3, 4, 1, 2, 3]]⟩ := by
  have hsame := operations_endAlike ⟨[[1, 2, 3, 4]]⟩ ⟨[[2, 3, 4], [1, 2, 3]]⟩
    (fun source : Bool => if source then ⟨0, 0, 3⟩ else ⟨0, 1, 3⟩)
    (fun source : Bool => if source then ⟨1, 0, 3⟩ else ⟨0, 0, 3⟩)
  have hplaces : ∀ source : Bool, ShowSame ⟨[[1, 2, 3, 4]]⟩ ⟨[[2, 3, 4], [1, 2, 3]]⟩
      (if source then ⟨0, 0, 3⟩ else ⟨0, 1, 3⟩) (if source then ⟨1, 0, 3⟩ else ⟨0, 0, 3⟩) := by
    intro source
    cases source <;> exact ⟨by decide, by decide, by decide⟩
  exact ⟨⟨hsame.1 (.compare true) false fun y _ => hplaces y,
    hsame.2.1 (.copyRange true 0 0 3) false fun y _ => hplaces y,
    hsame.2.2 [false, true] .undefined fun y _ => hplaces y⟩,
    ⟨rfl, rfl⟩, ⟨rfl, rfl⟩, rfl, rfl⟩

end Octets
