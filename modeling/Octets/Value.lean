import Octets.Bytes
import Octets.Number.Binary64

/-!
# Argument values

The operations of this library take loosely typed arguments: a position may be missing or be a
text, a needle may be a number, a text or a buffer. `Value` is the one type of such an argument.
It is parametric in what stands for a buffer: a caller names it, a store resolves the name to a
window, and the rules of this library see an `Operand`, in which a buffer is the bytes that it
shows at the time of the call.
-/

namespace Octets

/-- A loosely typed argument, whose buffers are given as `ω`. -/
inductive Value (ω : Type) where
  /-- A missing argument. -/
  | undefined
  | null
  | bool (b : Bool)
  | number (x : Binary64)
  | bigInteger (n : Int)
  | text (s : String)
  /-- A plain sequence of bytes. -/
  | bytes (content : Bytes)
  /-- A buffer. -/
  | buffer (w : ω)
deriving DecidableEq

/-- An argument whose buffer is given by the bytes that it shows. -/
abbrev Operand := Value Bytes

namespace Value

variable {ω ω' : Type}

/-- Give the buffers of an argument in another way. -/
def map (f : ω → ω') : Value ω → Value ω'
  | .undefined => .undefined
  | .null => .null
  | .bool b => .bool b
  | .number x => .number x
  | .bigInteger n => .bigInteger n
  | .text s => .text s
  | .bytes content => .bytes content
  | .buffer w => .buffer (f w)

/-- Give the buffers of an argument in another way that may fail. -/
def mapM? (f : ω → Option ω') : Value ω → Option (Value ω')
  | .undefined => some .undefined
  | .null => some .null
  | .bool b => some (.bool b)
  | .number x => some (.number x)
  | .bigInteger n => some (.bigInteger n)
  | .text s => some (.text s)
  | .bytes content => some (.bytes content)
  | .buffer w => (f w).map .buffer

/-- The buffer of an argument, if it is one. -/
def buffers : Value ω → List ω
  | .buffer w => [w]
  | _ => []

/-- The number nearest to an integer. -/
def ofInt (n : Int) : Value ω := .number (.ofInt n)

/-- The argument is missing. -/
def isUndefined : Value ω → Bool
  | .undefined => true
  | _ => false

/-- The argument is a text. -/
def isText : Value ω → Bool
  | .text _ => true
  | _ => false

/-- The number of a number argument, without coercion. -/
def number? : Value ω → Option Binary64
  | .number x => some x
  | _ => none

/-- The text of a text argument, without coercion. -/
def text? : Value ω → Option String
  | .text s => some s
  | _ => none

/-- The name of the argument's kind. -/
def kind : Value ω → String
  | .undefined => "undefined"
  | .null => "object"
  | .bool _ => "boolean"
  | .number _ => "number"
  | .bigInteger _ => "bigint"
  | .text _ => "string"
  | .bytes _ => "object"
  | .buffer _ => "object"

@[simp] theorem map_id (v : Value ω) : v.map id = v := by cases v <;> rfl

@[simp] theorem map_map {ω'' : Type} (f : ω → ω') (g : ω' → ω'') (v : Value ω) :
    (v.map f).map g = v.map (g ∘ f) := by cases v <;> rfl

@[simp] theorem map_undefined (f : ω → ω') : (undefined : Value ω).map f = .undefined := rfl

@[simp] theorem map_text (f : ω → ω') (s : String) : (text s).map f = .text s := rfl

@[simp] theorem map_ofInt (f : ω → ω') (n : Int) : (ofInt n).map f = .ofInt n := rfl

/-- Two ways to give the buffers are the same if they are so for the buffer of the argument. -/
theorem map_congr {f g : ω → ω'} {v : Value ω} (h : ∀ w ∈ v.buffers, f w = g w) :
    v.map f = v.map g := by
  cases v <;> simp_all [map, buffers]

@[simp] theorem buffers_map (f : ω → ω') (v : Value ω) : (v.map f).buffers = v.buffers.map f := by
  cases v <;> rfl

@[simp] theorem buffers_ofInt (n : Int) : (ofInt n : Value ω).buffers = [] := rfl

@[simp] theorem isUndefined_map (f : ω → ω') (v : Value ω) :
    (v.map f).isUndefined = v.isUndefined := by cases v <;> rfl

@[simp] theorem isText_map (f : ω → ω') (v : Value ω) : (v.map f).isText = v.isText := by
  cases v <;> rfl

end Value

end Octets
