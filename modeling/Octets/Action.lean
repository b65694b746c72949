import Octets.Bytes
import Octets.Fault

/-!
# Actions

An action runs on a state and ends in a result or stops. It stops in a fault, where a check
refuses its arguments, or in a trap, where something is done that no check stands in front of: a
range that does not lie in the bytes, a difference below zero, bytes put in a place of another
size. What an action has done to the state before it stops stays done.

* `part`, `difference`, `copied` — the computations that may trap;
* `Action` — computations on a state, into which checks and traps are lifted;
* `within`, `assign`, `move` — the actions on the bytes of a block that may trap.
-/

namespace Octets

/-- What is done without a check, and cannot be done. -/
inductive Trap where
  /-- A range lies outside the bytes. -/
  | range
  /-- A difference of counts is below zero. -/
  | difference
  /-- Bytes are copied to a place of another size. -/
  | size
deriving DecidableEq

/-- Why a computation stops. -/
inductive Stop where
  | fault (f : Fault)
  | trap (t : Trap)
deriving DecidableEq

/-- A check stops in its fault. -/
instance : MonadLift (Except Fault) (Except Stop) := ⟨Except.mapError Stop.fault⟩

/-! ## Computations that may trap -/

section

variable {α : Type}

/-- The items in `[start, stop)`, a range that must lie in the list. -/
def part (items : List α) (start stop : Nat) : Except Stop (List α) :=
  if start ≤ stop ∧ stop ≤ items.length then .ok ((items.drop start).take (stop - start))
  else .error (.trap .range)

/-- The difference of two counts, the first of which must not be the smaller one. -/
def difference (a b : Nat) : Except Stop Nat :=
  if b ≤ a then .ok (a - b) else .error (.trap .difference)

/-- A copy of bytes that must be of the given number. -/
def copied (size : Nat) (content : Bytes) : Except Stop Bytes :=
  if content.length = size then .ok content else .error (.trap .size)

/-- The bytes with `new` in the place of `[start, stop)`, a range of as many bytes. -/
def replaced (content : Bytes) (start stop : Nat) (new : Bytes) : Except Stop Bytes :=
  if start ≤ stop ∧ stop ≤ content.length then
    if new.length = stop - start then .ok (content.overwrite start new)
    else .error (.trap .size)
  else .error (.trap .range)

theorem part_eq_ok {items : List α} {start stop : Nat} (hle : start ≤ stop)
    (hlen : stop ≤ items.length) :
    part items start stop = .ok ((items.drop start).take (stop - start)) :=
  if_pos ⟨hle, hlen⟩

/-- What a part that is not refused is. -/
theorem part_eq_ok_iff {items piece : List α} {start stop : Nat} :
    part items start stop = .ok piece ↔
      (start ≤ stop ∧ stop ≤ items.length) ∧ piece = (items.drop start).take (stop - start) := by
  unfold part
  split
  · rename_i h
    simp [h, eq_comm]
  · rename_i h
    exact ⟨fun heq => (nomatch heq), fun heq => absurd heq.1 h⟩

/-- A part has as many items as its range. -/
theorem length_of_part {items piece : List α} {start stop : Nat}
    (h : part items start stop = .ok piece) : piece.length = stop - start := by
  obtain ⟨⟨hle, hlen⟩, rfl⟩ := part_eq_ok_iff.mp h
  simp only [List.length_take, List.length_drop]
  omega

theorem difference_eq_ok {a b : Nat} (h : b ≤ a) : difference a b = .ok (a - b) := if_pos h

/-- What a difference that is not refused is. -/
theorem difference_eq_ok_iff {a b d : Nat} : difference a b = .ok d ↔ b ≤ a ∧ d = a - b := by
  unfold difference
  split
  · rename_i h
    simp [h, eq_comm]
  · rename_i h
    exact ⟨fun heq => (nomatch heq), fun heq => absurd heq.1 h⟩

theorem copied_eq_ok {size : Nat} {content : Bytes} (h : content.length = size) :
    copied size content = .ok content :=
  if_pos h

theorem replaced_eq_ok {content : Bytes} {start stop : Nat} {new : Bytes} (hle : start ≤ stop)
    (hlen : stop ≤ content.length) (hnew : new.length = stop - start) :
    replaced content start stop new = .ok (content.overwrite start new) := by
  rw [replaced, if_pos ⟨hle, hlen⟩, if_pos hnew]

end

/-! ## Actions -/

/-- A computation on a state. -/
abbrev Action (σ : Type) := EStateM Stop σ

namespace Action

variable {σ α : Type}

/-- The end of a computation in a state. -/
def outcome (result : Except Stop α) (s : σ) : EStateM.Result Stop σ α :=
  match result with
  | .ok a => .ok a s
  | .error stop => .error stop s

/-- A computation that does not look at the state is an action. -/
instance : MonadLift (Except Stop) (Action σ) := ⟨outcome⟩

/-- Run an action on a part of the state; what it does to the part is done to the state. -/
def on {τ : Type} (get : σ → τ) (put : τ → σ → σ) (p : Action τ α) : Action σ α := fun s =>
  match p.run (get s) with
  | .ok a t => .ok a (put t s)
  | .error stop t => .error stop (put t s)

/-! ### Bytes -/

/-- Run an action on the bytes in `[start, stop)`, a range that must lie in the bytes. -/
def within (start stop : Nat) (p : Action Bytes α) : Action Bytes α := fun content =>
  if start ≤ stop ∧ stop ≤ content.length then
    (p.on (·.range start stop) fun new content => content.overwrite start new) content
  else .error (.trap .range) content

/-- Put other bytes in the place of all bytes, which must be of the same number. -/
def assign (new : Bytes) : Action Bytes Unit := do
  let content ← get
  let new ← copied content.length new
  set new

/-- Copy the bytes in `[start, stop)` to the place at `target`. Both ranges must lie in the
bytes, and they may overlap. -/
def move (start stop target : Nat) : Action Bytes Unit := do
  let content ← get
  let moved ← part content start stop
  let new ← replaced content target (target + (stop - start)) moved
  set new

end Action

end Octets
