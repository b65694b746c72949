import Octets.Memory.Access
import Octets.Memory.Construction
import Octets.Proofs.Copy
import Octets.Proofs.Fill
import Octets.Proofs.Growth
import Octets.Proofs.Length

/-!
# Runs that make windows

A window is made onto a new block, or onto a part of a block that is there. In both cases it lies
in its block, and no difference is taken that is below zero, whatever the arguments are.
-/

namespace Octets

open Octets.Action (outcome)

variable {Safe : Prop} {s : Store} {w : Window}

/-! ## New blocks -/

theorem Argument.blockSize_eq_ok {n : Nat} (h : n ≤ maxLength) : blockSize n = .ok () :=
  if_neg (Nat.not_lt.mpr h)

theorem Argument.blockSize_le {n : Nat} {u : Unit} (h : blockSize n = .ok u) : n ≤ maxLength := by
  unfold blockSize at h
  split at h
  · nomatch h
  · omega

namespace Store

theorem run_allocate (s : Store) (size : Nat) :
    (allocate size).run s =
      s.added (liftM (Argument.blockSize size) >>= fun _ => .ok (List.replicate size 0)) := by
  unfold allocate
  cases Argument.blockSize size <;> rfl

theorem ends_wrap (s : Store) (content : Bytes) :
    Ends s.Extends Safe (IsNew s) ((wrap content).run s) :=
  ends_added (NoTrap.ok content)

theorem ends_allocate (s : Store) (size : Nat) :
    Ends s.Extends Safe
      (fun v t => IsNew s v t ∧ t.capacity v.block = size ∧ size ≤ maxLength)
      ((allocate size).run s) := by
  rw [run_allocate]
  cases hblock : Argument.blockSize size with
  | error f => exact .refl s
  | ok _ =>
    refine ⟨.adopt s _, ⟨s.holds_adopt _, rfl⟩, ?_, Argument.blockSize_le hblock⟩
    simp [adopt, capacity, block]

end Store

namespace Value

/-- A look at an argument, and then an action where its check lets it pass. -/
theorem ends_ask {α β : Type} {Post : β → Store → Prop} {v : Value Window}
    {check : Operand → Except Fault α} {k : α → Action Store β}
    (hv : ∀ w ∈ v.buffers, s.Holds w)
    (hk : ∀ a, check (v.map s.read) = .ok a → Ends s.Extends Safe Post ((k a).run s)) :
    Ends s.Extends Safe Post ((v.ask check >>= k).run s) := by
  rw [EStateM.run_bind, run_ask hv]
  cases hcheck : check (v.map s.read) with
  | ok a => exact hk a hcheck
  | error f => exact .refl s

end Value

namespace Window

variable {size value encoding start stop offset length : Value Window}

theorem ends_ofText (text : String) (he : ∀ v ∈ encoding.buffers, s.Holds v) :
    Ends s.Extends Safe (IsNew s) ((ofText text encoding).run s) :=
  Value.ends_ask he fun content _ => s.ends_wrap content

/-- The arguments are looked at one after the other, and the first that is refused is the fault. -/
theorem run_askAll {α : Type} {check : Operand → Except Fault α} {values : List (Value Window)}
    (hv : ∀ v ∈ values, ∀ w ∈ v.buffers, s.Holds w) :
    (values.mapM (Value.ask · check)).run s =
      outcome (liftM ((values.map (·.map s.read)).mapM check)) s := by
  induction values with
  | nil => rfl
  | cons v rest ih =>
    have hrest := ih fun u hu => hv u (List.mem_cons_of_mem _ hu)
    rw [List.mapM_cons, List.map_cons, List.mapM_cons, liftM_bind]
    refine Action.run_bind_outcome (Value.run_ask (hv v List.mem_cons_self) check) fun a _ => ?_
    rw [liftM_bind]
    exact Action.run_bind_outcome hrest fun items _ => rfl

theorem ends_ofValues {values : List (Value Window)}
    (hv : ∀ v ∈ values, ∀ w ∈ v.buffers, s.Holds w) :
    Ends s.Extends Safe (IsNew s) ((ofValues values).run s) := by
  unfold ofValues
  rw [EStateM.run_bind, run_askAll hv]
  cases (values.map (·.map s.read)).mapM Value.toByte with
  | ok content => exact s.ends_wrap content
  | error f => exact .refl s

theorem ends_copyOf (hw : s.Holds w) : Ends s.Extends Safe (IsNew s) (w.copyOf.run s) := by
  unfold copyOf
  rw [run_load_bind hw]
  exact s.ends_wrap _

theorem ends_concat {parts : List Window} {totalLength : Value Window}
    (hparts : ∀ p ∈ parts, s.Holds p) (ht : ∀ v ∈ totalLength.buffers, s.Holds v) :
    Ends s.Extends Safe (IsNew s) ((concat parts totalLength).run s) := by
  rw [run_concat hparts ht]
  exact ends_added (.lift _)

theorem ends_sized (hsize : ∀ v ∈ size.buffers, s.Holds v) :
    Ends s.Extends Safe (IsNew s) ((sized size).run s) :=
  Value.ends_ask hsize fun n _ => (s.ends_allocate n).imp fun _ _ h => h.1

/-- A new block is filled after it is made. It is shorter than the limit, whatever blocks there
are, so that the fill does not trap. -/
theorem ends_filled (hsize : ∀ v ∈ size.buffers, s.Holds v) (hv : ∀ v ∈ value.buffers, s.Holds v)
    (he : ∀ v ∈ encoding.buffers, s.Holds v) :
    Ends s.Extends Safe (IsNew s) ((filled size value encoding).run s) := by
  refine Value.ends_ask hsize fun n _ => ?_
  rw [EStateM.run_bind, Store.run_allocate]
  cases hblock : Argument.blockSize n with
  | error f => exact .refl s
  | ok _ =>
    -- What is left runs in the store with the new block, which does not change its size.
    have hmade := s.holds_adopt (List.replicate n 0)
    have hextends := Store.Extends.adopt s (List.replicate n 0)
    simp only [liftM_ok, ok_bind, Store.added_ok]
    split
    · exact ⟨hextends, hmade, rfl⟩
    · rw [EStateM.run_bind, run_fill hmade (fun v hmem => hextends.holds (hv v hmem))
        (by simp [Value.ofInt, Value.buffers]) (by simp [Value.ofInt, Value.buffers])
        (fun v hmem => hextends.holds (he v hmem)), Store.read_adopt_self]
      have hmax : (List.replicate n (0 : UInt8)).length ≤ maxLength := by
        rw [List.length_replicate]
        exact Argument.blockSize_le hblock
      cases hfill : Content.fill (List.replicate n 0) _ _ _ _ with
      | ok new =>
        have hlen := Content.length_fill hfill
        have hwritten := Store.Extends.write hmade hlen
        exact ⟨hextends.trans hwritten, hwritten.holds hmade, rfl⟩
      | error stop =>
        cases stop with
        | fault f => exact hextends
        | trap t => exact absurd hfill (Content.noTrap_fill _ _ _ _ hmax t)

/-! ## Windows onto blocks that are there -/

/-- The window at a place of a block lies in it. -/
theorem run_create (s : Store) (id offset length : Nat) :
    (create id offset length).run s =
      if s.capacity id < offset then .error (.fault (.outsideBounds "offset")) s
      else if s.capacity id < offset + length then .error (.fault (.outsideBounds "length")) s
      else .ok ⟨id, offset, length⟩ s := by
  simp only [create, EStateM.run_bind, EStateM.run_get, Action.run_liftM_check]
  -- The difference is taken after the first check, and is not below zero then.
  by_cases hoffset : s.capacity id < offset
  · rw [refuse_eq_error hoffset, if_pos hoffset]
    rfl
  · simp only [refuse_eq_ok hoffset, if_neg hoffset, liftM_ok, Action.outcome_ok,
      Action.run_liftM, difference_eq_ok (Nat.not_lt.mp hoffset)]
    by_cases hlength : s.capacity id < offset + length
    · rw [refuse_eq_error (by omega), if_pos hlength]
      rfl
    · rw [refuse_eq_ok (by omega), if_neg hlength]
      rfl

theorem ends_create {id : Nat} (hid : id < s.blocks.length) (offset length : Nat) :
    Ends s.Extends Safe (fun v t => t.Holds v ∧ v.block = id)
      ((create id offset length).run s) := by
  rw [run_create]
  split
  · exact .refl s
  · split
    · exact .refl s
    · rename_i hroom
      exact ⟨.refl s, ⟨hid, Nat.not_lt.mp hroom⟩, rfl⟩

/-- The difference of the moved positions is not below zero, so that a part can always be taken. -/
theorem aliased_eq_ok (w : Window) (start stop : Int) :
    w.aliased start stop = .ok (w.slice start stop) := by
  simp only [aliased, slice, difference_eq_ok (Nat.le_max_right _ _), ok_bind]
  rw [← Nat.sub_eq_max_sub]
  rfl

theorem holds_slice (hw : s.Holds w) (start stop : Int) : s.Holds (w.slice start stop) := by
  obtain ⟨_, hle⟩ := w.slice_within start stop
  exact ⟨hw.1, Nat.le_trans hle hw.2⟩

theorem ends_aliased (hw : s.Holds w) (start stop : Int) :
    Ends s.Extends Safe (fun v t => t.Holds v ∧ v.block = w.block)
      ((liftM (w.aliased start stop) : Action Store Window).run s) := by
  rw [aliased_eq_ok]
  exact ⟨.refl s, holds_slice hw start stop, rfl⟩

theorem ends_subarray (hw : s.Holds w) (hstart : ∀ v ∈ start.buffers, s.Holds v)
    (hstop : ∀ v ∈ stop.buffers, s.Holds v) :
    Ends s.Extends Safe (fun v t => t.Holds v ∧ v.block = w.block)
      ((w.subarray start stop).run s) :=
  Value.ends_ask hstart fun first _ => Value.ends_ask hstop fun last _ => ends_aliased hw first last

theorem ends_share {id : Nat} (hid : id < s.blocks.length)
    (hoffset : ∀ v ∈ offset.buffers, s.Holds v) (hlength : ∀ v ∈ length.buffers, s.Holds v) :
    Ends s.Extends Safe (fun v t => t.Holds v ∧ v.block = id)
      ((share id offset length).run s) := by
  refine Value.ends_ask hoffset fun first _ => ?_
  rw [EStateM.run_bind, EStateM.run_get]
  refine Ends.check (.refl s) fun _ _ => ?_
  exact Value.ends_ask hlength fun count _ => ends_create hid _ _

end Window

end Octets
