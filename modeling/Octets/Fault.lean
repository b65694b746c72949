import Octets.Value.Shown

/-!
# Faults

Every operation that fails does so for one of the causes below. A fault keeps what its message
needs; the wording is in `Fault.wording` alone. There are two kinds: a value outside its domain,
and an argument of the wrong type.
-/

namespace Octets

/-- The two kinds of faults. -/
inductive Fault.Kind where
  | range
  | type
deriving DecidableEq

/-- Why an operation failed. -/
inductive Fault where
  /-- The value of a named argument is not what it must be. -/
  | outOfRange (name expected : String) (received : Operand)
  /-- The value of a named argument is outside its domain, without details. -/
  | outsideDomain (name : String)
  /-- A named argument points outside the memory. -/
  | outsideBounds (name : String)
  /-- An access outside the memory. -/
  | outsideMemory
  /-- A named argument is of the wrong type. -/
  | wrongType (name expected : String) (received : Operand)
  /-- A named argument has a value that cannot be used. -/
  | invalidValue (name : String) (received : Operand)
  /-- There is no encoding of this name. -/
  | unknownEncoding (name : String)
  /-- The size of a buffer is not a multiple of a unit. -/
  | misaligned (unit : String)
  /-- The text is not in the encoding. -/
  | malformedText
  /-- A character does not fit one byte. -/
  | wideCharacter
  /-- A big integer stands where a number is needed. -/
  | bigIntegerAsNumber
deriving DecidableEq

/-- A check that refuses what satisfies a condition. -/
def refuse (condition : Prop) [Decidable condition] (f : Fault) : Except Fault Unit :=
  if condition then .error f else .ok ()

namespace Fault

/-- The kind of a fault. -/
def kind : Fault → Kind
  | .outOfRange .. => .range
  | .outsideDomain _ => .range
  | .outsideBounds _ => .range
  | .outsideMemory => .range
  | .wrongType .. => .type
  | .invalidValue .. => .type
  | .unknownEncoding _ => .type
  | .misaligned _ => .range
  | .malformedText => .type
  | .wideCharacter => .type
  | .bigIntegerAsNumber => .type

/-- The code of a fault; a failed conversion has none. -/
def code? : Fault → Option String
  | .outOfRange .. => some "ERR_OUT_OF_RANGE"
  | .outsideDomain _ => some "ERR_OUT_OF_RANGE"
  | .outsideBounds _ => some "ERR_BUFFER_OUT_OF_BOUNDS"
  | .outsideMemory => some "ERR_BUFFER_OUT_OF_BOUNDS"
  | .wrongType .. => some "ERR_INVALID_ARG_TYPE"
  | .invalidValue .. => some "ERR_INVALID_ARG_VALUE"
  | .unknownEncoding _ => some "ERR_UNKNOWN_ENCODING"
  | .misaligned _ => some "ERR_INVALID_BUFFER_SIZE"
  | .malformedText => some "ERR_INVALID_CHARACTER"
  | .wideCharacter => some "ERR_INVALID_CHARACTER"
  | .bigIntegerAsNumber => none

/-- The received value of a fault as it is written in its message, if the fault keeps one. -/
def received : Fault → String
  | .outOfRange _ _ received => received.received
  | .wrongType _ _ received => received.described
  | .invalidValue _ received => received.shown
  | _ => ""

/-- The wording of a fault, with its received value as it is written. -/
def wording (f : Fault) (received : String) : String :=
  match f with
  | .outOfRange name expected _ =>
    "The value of \"" ++ name ++ "\" is out of range. It must be " ++ expected ++
      ". Received " ++ received
  | .outsideDomain name => "The value of \"" ++ name ++ "\" is out of range."
  | .outsideBounds name => "\"" ++ name ++ "\" is outside of buffer bounds"
  | .outsideMemory => "Attempt to access memory outside buffer bounds"
  | .wrongType name expected _ =>
    "The \"" ++ name ++ "\" argument must be " ++ expected ++ ". Received " ++ received
  | .invalidValue name _ =>
    "The argument '" ++ name ++ "' is invalid. Received " ++ cutText 128 128 received
  | .unknownEncoding name => "Unknown encoding: " ++ name
  | .misaligned unit => "Buffer size must be a multiple of " ++ unit
  | .malformedText => "The string to be decoded is not correctly encoded."
  | .wideCharacter => "Invalid character"
  | .bigIntegerAsNumber => "Cannot convert a BigInt value to a number"

/-- The message of a fault. -/
def message (f : Fault) : String := f.wording f.received

end Fault

end Octets
