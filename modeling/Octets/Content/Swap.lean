import Octets.Fault

/-!
# Swap

Reversing the order of the bytes in every group of two, four or eight.
-/

namespace Octets

/-- The sizes of the groups whose bytes are reversed. -/
inductive SwapUnit where
  | bits16
  | bits32
  | bits64
deriving DecidableEq

namespace SwapUnit

/-- The number of bytes of a group. -/
def size : SwapUnit → Nat
  | .bits16 => 2
  | .bits32 => 4
  | .bits64 => 8

/-- The name of a unit in messages. -/
def text : SwapUnit → String
  | .bits16 => "16-bits"
  | .bits32 => "32-bits"
  | .bits64 => "64-bits"

/-- The unit of the given number of bits. -/
def ofBits? : Nat → Option SwapUnit
  | 16 => some .bits16
  | 32 => some .bits32
  | 64 => some .bits64
  | _ => none

end SwapUnit

namespace Bytes

/-- The bytes with every whole group of `k` reversed. -/
def reverseGroups (k : Nat) (content : Bytes) : Bytes :=
  if 0 < k ∧ k ≤ content.length then
    (content.take k).reverse ++ reverseGroups k (content.drop k)
  else content
termination_by content.length
decreasing_by
  rw [List.length_drop]
  omega

@[simp] theorem length_reverseGroups (k : Nat) (content : Bytes) :
    (reverseGroups k content).length = content.length := by
  fun_induction reverseGroups k content with
  | case1 content h ih =>
    simp only [List.length_append, List.length_reverse, List.length_take, ih, List.length_drop]
    omega
  | case2 => rfl

end Bytes

namespace Content

/-- Reverse every group; the groups must take up all bytes. -/
def swap (content : Bytes) (unit : SwapUnit) : Except Fault Bytes :=
  if content.length % unit.size = 0 then .ok (content.reverseGroups unit.size)
  else .error (.misaligned unit.text)

end Content

end Octets
