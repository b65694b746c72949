import Octets.Memory.Search
import Octets.Proofs.Access

/-!
# Runs of searches

A search looks only at positions with room for the needle, so no piece that it compares lies
outside the bytes (`Search.locateBytes_eq_ok`), and it finds what `Octets.Content.Search` says
about the bytes that the window shows.
-/

namespace Octets

open Octets.Action (outcome run_bind_outcome)

namespace Search

/-! ## Pieces -/

/-- Scanning positions with room for the needle finds the first one at which it stands. -/
theorem scan_eq_ok {α : Type} [BEq α] {hay needle : List α} {positions : List Nat}
    (h : ∀ i ∈ positions, i + needle.length ≤ hay.length) :
    scan hay needle positions = .ok (positions.find? (occursAt hay needle)) := by
  induction positions with
  | nil => rfl
  | cons i rest ih =>
    have hpart : part hay i (i + needle.length) = .ok ((hay.drop i).take needle.length) := by
      rw [part_eq_ok (Nat.le_add_right _ _) (h i (by simp)), Nat.add_sub_cancel_left]
    rw [scan, hpart, ok_bind, List.find?_cons]
    cases hoccurs : occursAt hay needle i with
    | true =>
      unfold occursAt at hoccurs
      rw [if_pos hoccurs]
      rfl
    | false =>
      unfold occursAt at hoccurs
      rw [hoccurs, if_neg Bool.false_ne_true]
      exact ih fun j hj => h j (by simp [hj])

/-- Every position that is looked at has room for the needle. -/
theorem le_of_mem_positions {last start i : Nat} {d : Direction}
    (h : i ∈ positions last start d) : i ≤ last := by
  cases d with
  | forward => exact (mem_positions_forward.mp h).2
  | backward => exact (mem_positions_backward.mp h).2

theorem locate_eq_ok {α : Type} [BEq α] (hay needle : List α) (start : Nat) (d : Direction) :
    locate hay needle start d = .ok (find hay needle start d) := by
  unfold locate find
  split
  · rfl
  · rw [difference_eq_ok (by omega), ok_bind]
    refine scan_eq_ok fun i hi => ?_
    have hle := le_of_mem_positions hi
    omega

/-- No access of a search is outside the bytes. -/
theorem locateBytes_eq_ok (hay needle : Bytes) (offset : Int) (d : Direction) (wide : Bool) :
    locateBytes hay needle offset d wide = .ok (searchBytes hay needle offset d wide) := by
  unfold locateBytes searchBytes
  cases task hay.length needle.length offset d wide with
  | answered p => rfl
  | bytes start => exact locate_eq_ok hay needle start d
  | units start => simp only [locate_eq_ok, ok_bind]; rfl

/-! ## Arguments -/

variable {ω ω' : Type}

@[simp] theorem encodingOf_map (f : ω → ω') (position encoding : Value ω) :
    (encodingOf position encoding).map f = encodingOf (position.map f) (encoding.map f) := by
  simp only [encodingOf, Value.isText_map]
  split <;> rfl

/-- The argument that names the encoding is one of the two. -/
theorem mem_buffers_encodingOf {position encoding : Value ω} {w : ω}
    (h : w ∈ (encodingOf position encoding).buffers) :
    w ∈ position.buffers ++ encoding.buffers := by
  unfold encodingOf at h
  split at h <;> simp [h]

end Search

namespace Window

open Search
open Value (run_observe run_ask)
open Store (length_read)

variable {s : Store} {w : Window} {value position encoding : Value Window}

theorem run_needle (hv : ∀ v ∈ value.buffers, s.Holds v) (he : ∀ v ∈ encoding.buffers, s.Holds v) :
    (needle value encoding).run s =
      outcome (liftM (Search.needle (value.map s.read) (encoding.map s.read))) s := by
  cases value with
  | text text => exact run_ask he _
  | bytes content => simp [needle, Search.needle, Value.map, run_observe he]
  | buffer source =>
    have hsource : s.Holds source := hv source (by simp [Value.buffers])
    simp [needle, Search.needle, Value.map, run_observe he, run_load hsource]
  | number x => rfl
  | undefined => rfl
  | null => rfl
  | bool b => rfl
  | bigInteger n => rfl

theorem run_indexOf (d : Direction) (hw : s.Holds w) (hv : ∀ v ∈ value.buffers, s.Holds v)
    (hp : ∀ v ∈ position.buffers, s.Holds v) (he : ∀ v ∈ encoding.buffers, s.Holds v) :
    (w.indexOf value position encoding d).run s =
      outcome (liftM (Content.indexOf (s.read w) (value.map s.read) (position.map s.read)
        (encoding.map s.read) d)) s := by
  simp only [indexOf, Content.indexOf, liftM_bind, length_read hw]
  refine run_bind_outcome (run_ask hp _) fun x _ => ?_
  have hencoding : ∀ v ∈ (encodingOf position encoding).buffers, s.Holds v := by
    intro v hmem
    rcases List.mem_append.mp (mem_buffers_encodingOf hmem) with hmem | hmem
    · exact hp v hmem
    · exact he v hmem
  rw [← encodingOf_map]
  refine run_bind_outcome (run_needle hv hencoding) fun n _ => ?_
  rw [run_load_bind hw, locateBytes_eq_ok]
  rfl

/-- A search whose arguments are accepted ends in what is found in the bytes. -/
theorem run_indexOf_eq_ok {x : Binary64} {n : Needle} (hw : s.Holds w)
    (hv : ∀ v ∈ value.buffers, s.Holds v) (hp : ∀ v ∈ position.buffers, s.Holds v)
    (he : ∀ v ∈ encoding.buffers, s.Holds v) (hx : number (position.map s.read) = .ok x)
    (hn : Search.needle (value.map s.read)
      (encodingOf (position.map s.read) (encoding.map s.read)) = .ok n) (d : Direction) :
    (w.indexOf value position encoding d).run s =
      .ok (searchBytes (s.read w) n.bytes (Search.offset w.length d x) d n.wide) s := by
  rw [run_indexOf d hw hv hp he, Content.indexOf, hx, ok_bind, hn, ok_bind, length_read hw]
  rfl

theorem run_includes (hw : s.Holds w) (hv : ∀ v ∈ value.buffers, s.Holds v)
    (hp : ∀ v ∈ position.buffers, s.Holds v) (he : ∀ v ∈ encoding.buffers, s.Holds v) :
    (w.includes value position encoding).run s =
      outcome (liftM (Content.includes (s.read w) (value.map s.read) (position.map s.read)
        (encoding.map s.read))) s := by
  unfold includes Content.includes
  rw [EStateM.run_bind, run_indexOf .forward hw hv hp he]
  cases Content.indexOf (s.read w) (value.map s.read) (position.map s.read) (encoding.map s.read)
    .forward with
  | error f => rfl
  | ok p => rfl

end Window

end Octets
