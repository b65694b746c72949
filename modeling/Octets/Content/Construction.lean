import Octets.Content.Fill

/-!
# Contents of new buffers

The bytes of a buffer that is made from a text, from a sequence of arguments, or with a size and
something to fill it with.
-/

namespace Octets.Content

/-- The bytes of a text. An argument for the encoding that is not a text means utf8. -/
def ofText (s : String) (encoding : Operand) : Except Fault Bytes := do
  let e ← Encoding.ofText encoding
  e.encode s

/-- One byte for each argument; the first that cannot be coerced is the fault. -/
def ofValues (values : List Operand) : Except Fault Bytes := values.mapM Value.toByte

/-- The argument asks for no filling of fresh memory. -/
def isNoFill {ω : Type} (v : Value ω) : Bool :=
  match v with
  | .undefined => true
  | .number x => x.isZero
  | _ => false

/-- Fresh memory of a size, filled from end to end unless there is nothing to fill, or with
nothing but zeros. -/
def filled (size value encoding : Operand) : Except Stop Bytes := do
  let n ← Argument.size size
  Argument.blockSize n
  if isNoFill value || n == 0 then return List.replicate n 0
  else fill (List.replicate n 0) value (.ofInt 0) (.ofInt n) encoding

end Octets.Content
