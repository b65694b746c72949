import Octets.Json.Record
import Octets.Text.Blank
import Octets.Text.Escaped

/-!
# Pool settings

The size of a slab is a positive multiple of eight. Settings are read from JSON, and a text, such
as the value of a variable of the environment, may override the size.
-/

namespace Octets

/-- The settings of a pool. -/
structure PoolConfig where
  poolSize : Nat
deriving DecidableEq

/-- Why settings are refused. -/
inductive ConfigFault where
  /-- The JSON text cannot be read. -/
  | unreadable
  /-- The size cannot be used. -/
  | invalidSize (size : Nat)
  /-- The text of a variable is not a size. -/
  | invalidVariable (name value : String)
deriving DecidableEq

namespace ConfigFault

/-- The wording of a fault. What makes JSON text unreadable is not told. -/
def message? : ConfigFault → Option String
  | .unreadable => none
  | .invalidSize size =>
    some ("pool size must be a positive multiple of 8, got " ++ toString size)
  | .invalidVariable name value =>
    some (name ++ " is not a valid size: " ++ Text.Escaped.escaped value)

end ConfigFault

namespace PoolConfig

/-- The settings if nothing else is said. -/
def default : PoolConfig := ⟨8192⟩

/-- The name of the variable that overrides the size. -/
def variableName : String := "BUFFER_POOL_SIZE"

/-- The size can be used. -/
def Valid (c : PoolConfig) : Prop := 0 < c.poolSize ∧ c.poolSize % 8 = 0

instance (c : PoolConfig) : Decidable c.Valid := by unfold Valid; infer_instance

/-- Requests below this size are served from a slab. -/
def threshold (c : PoolConfig) : Nat := c.poolSize / 2

/-- The settings with the given size, if it can be used. -/
def ofSize (size : Nat) : Except ConfigFault PoolConfig :=
  if (PoolConfig.mk size).Valid then .ok ⟨size⟩ else .error (.invalidSize size)

/-- The settings in JSON text. -/
def ofJson (text : String) : Except ConfigFault PoolConfig :=
  match Json.poolSize? text with
  | some size => ofSize (size.getD default.poolSize)
  | none => .error .unreadable

/-- The greatest unsigned 64-bit integer. -/
def maxNatural : Nat := 0xFFFFFFFFFFFFFFFF

/-- The size that a text spells: decimal digits, with a plus or without, between blanks. -/
def sizeOfText? (text : String) : Option Nat :=
  let digits :=
    match Text.trim Text.isBlank text.toList with
    | '+' :: rest => rest
    | rest => rest
  if digits.isEmpty || !digits.all Char.isDigit then none
  else
    let size := Nat.ofDigitChars 10 digits 0
    if maxNatural < size then none else some size

/-- The settings with the size that the text of the variable spells, if it is set. -/
def overridden (c : PoolConfig) (value : Option String) : Except ConfigFault PoolConfig :=
  match value with
  | none => .ok c
  | some text =>
    match sizeOfText? text with
    | none => .error (.invalidVariable variableName text)
    | some size => ofSize size

/-- The settings as JSON text. -/
def json (c : PoolConfig) : String := "\x7b\"pool_size\":" ++ toString c.poolSize ++ "\x7d"

end PoolConfig

end Octets
