import Octets.Argument

/-!
# Copy

Copying bytes of a source into a target, and joining byte sequences. The source is what it was
before the call, so that copying within one block is as if through a temporary copy.
-/

namespace Octets.Content

/-- The target with the bytes in `[sourceStart, sourceStop)` of the source at `targetStart`, as
many as there are and fit, and their number. -/
def copyRange (source target : Bytes) (targetStart sourceStart sourceStop : Nat) : Bytes × Nat :=
  let new := (source.range sourceStart sourceStop).take (target.length - targetStart)
  (if targetStart < target.length then target.overwrite targetStart new else target, new.length)

/-- A position of a copy: whole numbers are taken as they are, everything else is coerced. -/
def copyPosition (v : Operand) (default : Int) : Except Fault Int :=
  match v with
  | .undefined => .ok default
  | .number x =>
    if x.isWhole then .ok (x.truncClamped minInt64 maxInt64)
    else Argument.integerOr v 0
  | other => Argument.integerOr other 0

/-- Copy a range of the source into the target. The positions are looked at in the order target
start, source start, source end; only the source start has an upper end. -/
def copy (source target : Bytes) (targetStart sourceStart sourceStop : Operand) :
    Except Fault (Bytes × Nat) := do
  let ts ← copyPosition targetStart 0
  refuse (ts < 0) (.outOfRange "targetStart" ">= 0" (.ofInt ts))
  let ss ← copyPosition sourceStart 0
  refuse (ss < 0 ∨ (source.length : Int) < ss)
    (.outOfRange "sourceStart" (">= 0 && <= " ++ toString source.length) (.ofInt ss))
  let se ← copyPosition sourceStop source.length
  refuse (se < 0) (.outOfRange "sourceEnd" ">= 0" (.ofInt se))
  if (target.length : Int) ≤ ts ∨ se ≤ ss then return (target, 0)
  else return copyRange source target ts.toNat ss.toNat (min se source.length).toNat

/-- The parts one after the other, cut or filled up with zeros to the given length, or to the sum of
theirs in 64 bits. -/
def concat (parts : List Bytes) (totalLength : Operand) : Except Fault Bytes :=
  match parts with
  | [] => .ok []
  | parts => do
    let total := wrappedSum (parts.map List.length)
    let length ← Argument.positionOr totalLength "length" maxLength total
    Argument.blockSize length
    return parts.flatten.take length ++ List.replicate (length - parts.flatten.length) 0

end Octets.Content
