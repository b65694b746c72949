import Octets.Proofs.Access
import Octets.Proofs.NoTrap

/-!
# How a store grows

Actions on a store add blocks and change bytes, but never change the size of a block. A window of
the store before is therefore one of the store afterwards.

* `Store.Extends` — the blocks of the one store are blocks of the other, of the same sizes;
* `Store.Bounded` — no block has more than `maxLength` bytes;
* `Ends` — how a run ends that keeps a property of the state, however it ends, and in which traps
  are possible only where a condition fails.
-/

namespace Octets

open Octets.Action (outcome)

variable {σ α β : Type} {s t u : Store} {w : Window}

namespace Store

/-- Every block of the one store is a block of the other, of the same size. -/
structure Extends (s t : Store) : Prop where
  length_le : s.blocks.length ≤ t.blocks.length
  capacity_eq : ∀ id < s.blocks.length, t.capacity id = s.capacity id

/-- No block has more bytes than a block may have. -/
def Bounded (s : Store) : Prop := ∀ content ∈ s.blocks, content.length ≤ maxLength

instance (s : Store) : Decidable s.Bounded := inferInstanceAs (Decidable (∀ _ ∈ _, _))

theorem Bounded.capacity_le (h : s.Bounded) (id : Nat) : s.capacity id ≤ maxLength := by
  unfold capacity block
  cases hblock : s.blocks[id]? with
  | none => exact Nat.zero_le _
  | some content => exact h content (List.mem_of_getElem? hblock)

namespace Extends

theorem refl (s : Store) : s.Extends s := ⟨Nat.le_refl _, fun _ _ => rfl⟩

theorem trans (hst : s.Extends t) (htu : t.Extends u) : s.Extends u where
  length_le := Nat.le_trans hst.length_le htu.length_le
  capacity_eq id hid := by
    rw [htu.capacity_eq id (Nat.lt_of_lt_of_le hid hst.length_le), hst.capacity_eq id hid]

/-- A window of a store is a window of every store that extends it. -/
theorem holds (h : s.Extends t) (hw : s.Holds w) : t.Holds w := by
  refine ⟨Nat.lt_of_lt_of_le hw.1 h.length_le, ?_⟩
  rw [h.capacity_eq w.block hw.1]
  exact hw.2

/-- A store is not larger than one that extends it. -/
theorem bounded (h : s.Extends t) (ht : t.Bounded) : s.Bounded := by
  intro content hmem
  obtain ⟨id, hid, hcontent⟩ := List.getElem_of_mem hmem
  have hcap : s.capacity id = content.length := by simp [capacity, block, hid, hcontent]
  rw [← hcap, ← h.capacity_eq id hid]
  exact ht.capacity_le id

theorem write (hw : s.Holds w) {new : Bytes} (hnew : new.length = w.length) :
    s.Extends (s.write w new) where
  length_le := by simp [Store.write]
  capacity_eq id _ := capacity_write hw hnew id

theorem adopt (s : Store) (content : Bytes) : s.Extends (s.adopt content).2 where
  length_le := by simp [Store.adopt]
  capacity_eq id hid := by simp [Store.adopt, capacity, block, List.getElem?_append_left hid]

end Extends

/-- The window onto a new block lies in it. -/
theorem holds_adopt (s : Store) (content : Bytes) :
    (s.adopt content).2.Holds (s.adopt content).1 := by
  simp [adopt, Holds, capacity, block]

/-- The bytes of a new block. -/
theorem block_adopt_self (s : Store) (content : Bytes) :
    (s.adopt content).2.block s.blocks.length = content := by
  simp [adopt, block]

/-- A new block leaves the bytes of the others. -/
theorem block_adopt {id : Nat} (h : id < s.blocks.length) (content : Bytes) :
    (s.adopt content).2.block id = s.block id := by
  simp [adopt, block, List.getElem?_append_left h]

/-- What a window shows is not longer than a block. -/
theorem Bounded.length_read_le (hs : s.Bounded) (hw : s.Holds w) :
    (s.read w).length ≤ maxLength := by
  have hcap := hw.2
  have hmax := hs.capacity_le w.block
  rw [length_read hw]
  omega

end Store

/-! ## Ends of runs -/

/-- A run ends in a state with a property: with a result that has a property as well, in a fault, or
in a trap, which it does only if a condition fails. -/
def Ends (Keep : σ → Prop) (Safe : Prop) (Post : α → σ → Prop) : EStateM.Result Stop σ α → Prop
  | .ok a s => Keep s ∧ Post a s
  | .error (.fault _) s => Keep s
  | .error (.trap _) s => Keep s ∧ ¬Safe

namespace Ends

variable {Keep : σ → Prop} {Safe : Prop} {Post : α → σ → Prop}

/-- A computation that leaves the state as it is. -/
theorem of_outcome {state : σ} {r : Except Stop α} (hkeep : Keep state) (hr : Safe → NoTrap r)
    (hpost : ∀ a, r = .ok a → Post a state) : Ends Keep Safe Post (outcome r state) := by
  cases r with
  | ok a => exact ⟨hkeep, hpost a rfl⟩
  | error stop =>
    cases stop with
    | fault f => exact hkeep
    | trap t => exact ⟨hkeep, fun hsafe => hr hsafe t rfl⟩

/-- What holds of a result may be weakened. -/
theorem imp {Post' : α → σ → Prop} {r : EStateM.Result Stop σ α} (h : Ends Keep Safe Post r)
    (himp : ∀ a state, Post a state → Post' a state) : Ends Keep Safe Post' r := by
  cases r with
  | ok a state => exact ⟨h.1, himp a state h.2⟩
  | error stop state => cases stop <;> exact h

/-- A sequence of two actions, the second of which runs in a state that the first one leaves. -/
theorem bind {Post' : β → σ → Prop} {p : Action σ α} {k : α → Action σ β} {state : σ}
    (hp : Ends Keep Safe Post (p.run state))
    (hk : ∀ a state', Keep state' → Post a state' → Ends Keep Safe Post' ((k a).run state')) :
    Ends Keep Safe Post' ((p >>= k).run state) := by
  rw [EStateM.run_bind]
  cases hrun : p.run state with
  | ok a state' =>
    rw [hrun] at hp
    exact hk a state' hp.1 hp.2
  | error stop state' =>
    rw [hrun] at hp
    cases stop <;> exact hp

/-- A check, and then an action where the check lets it pass. -/
theorem check {Post' : β → σ → Prop} {r : Except Fault α} {k : α → Action σ β} {state : σ}
    (hkeep : Keep state) (hk : ∀ a, r = .ok a → Ends Keep Safe Post' ((k a).run state)) :
    Ends Keep Safe Post' (((liftM r : Action σ α) >>= k).run state) := by
  cases r with
  | ok a => exact hk a rfl
  | error f => exact hkeep

end Ends

/-- An edit that gives as many bytes as there were. -/
theorem ends_settle {r : Except Stop (Bytes × α)} (hw : s.Holds w)
    (hr : s.Bounded → NoTrap r) (hlen : ∀ new a, r = .ok (new, a) → new.length = w.length) :
    Ends s.Extends s.Bounded (fun _ _ => True) (s.settle w r) := by
  cases r with
  | ok result => exact ⟨.write hw (hlen _ _ rfl), trivial⟩
  | error stop =>
    cases stop with
    | fault f => exact .refl s
    | trap t => exact ⟨.refl s, fun hsafe => hr hsafe t rfl⟩

/-- A window onto a new block: no window of the store before lies in the block. -/
def IsNew (s : Store) (v : Window) (t : Store) : Prop := t.Holds v ∧ v.block = s.blocks.length

/-- An action that makes a new block. -/
theorem ends_added {Safe : Prop} {r : Except Stop Bytes} (hr : NoTrap r) :
    Ends s.Extends Safe (IsNew s) (s.added r) := by
  cases r with
  | ok content => exact ⟨.adopt s content, s.holds_adopt content, rfl⟩
  | error stop =>
    cases stop with
    | fault f => exact .refl s
    | trap t => exact absurd rfl (hr t)

end Octets
