import Octets.Json.Number
import Octets.Json.Tree
import Octets.Text.Escaped

/-!
# Records in JSON

Two records are read from JSON text: the settings of a pool, with a field `pool_size` that may be
missing, and a buffer, with the fields `type` and `data`. Each may also be an array of the values
of its fields in this order. A field of a record must not be repeated; other fields are ignored,
but their names must be texts.
-/

namespace Octets

namespace Json

/-- The value of a field that must not be repeated; its absence is `some none`. -/
def field? (name : String) (entries : List (Quoted × Json)) : Option (Option Json) :=
  match entries.filter (fun entry => entry.1 == some name.toList) with
  | [] => some none
  | [entry] => some (some entry.2)
  | _ => none

/-- The names of all fields are texts. -/
def namesAreTexts (entries : List (Quoted × Json)) : Bool :=
  entries.all fun entry => entry.1.isSome

/-- A natural number that fits 64 bits. -/
def natural? : Json → Option Nat
  | .number n =>
    match amount? n with
    | some (.natural k) => some k
    | _ => none
  | _ => none

/-- A number. -/
def number? : Json → Option Binary64
  | .number n => (amount? n).map Amount.toNumber
  | _ => none

/-- An array of numbers. -/
def numbers? : Json → Option (List Binary64)
  | .items values => values.mapM number?
  | _ => none

/-- A text. -/
def text? : Json → Option (List Char)
  | .text s => s
  | _ => none

/-! ## The settings of a pool -/

/-- The size in the settings of a pool; `some none` if there is none. -/
def poolSizeOf? : Json → Option (Option Nat)
  | .items [] => some none
  | .items [size] => (natural? size).map some
  | .fields entries =>
    if namesAreTexts entries then
      match field? "pool_size" entries with
      | some none => some none
      | some (some size) => (natural? size).map some
      | none => none
    else none
  | _ => none

/-- The size in the JSON text of the settings of a pool. -/
def poolSize? (text : String) : Option (Option Nat) := (ofText? text.toList).bind poolSizeOf?

/-! ## Buffers -/

/-- The name of the type of a buffer. -/
def bufferType : String := "Buffer"

/-- A record of a type and numbers. -/
structure Typed where
  type : List Char
  data : List Binary64

/-- The record of a type and numbers. -/
def typed? : Json → Option Typed
  | .items [type, data] => do return ⟨← text? type, ← numbers? data⟩
  | .fields entries =>
    if namesAreTexts entries then do
      let type ← ← field? "type" entries
      let data ← ← field? "data" entries
      return ⟨← text? type, ← numbers? data⟩
    else none
  | _ => none

end Json

/-- Why JSON text is not a buffer. -/
inductive JsonFault where
  /-- The text cannot be read. -/
  | unreadable
  /-- The record has another type. -/
  | wrongType (type : String)
deriving DecidableEq

/-- The wording of a fault. What makes JSON text unreadable is not told. -/
def JsonFault.message? : JsonFault → Option String
  | .unreadable => none
  | .wrongType type =>
    some ("expected type \"Buffer\", found " ++ Text.Escaped.escaped type)

namespace Bytes

/-- The bytes of a buffer in JSON text; every number is reduced to a byte. -/
def ofJson (text : String) : Except JsonFault Bytes :=
  match (Json.ofText? text.toList).bind Json.typed? with
  | none => .error .unreadable
  | some record =>
    if record.type = Json.bufferType.toList then .ok (record.data.map Binary64.toByte)
    else .error (.wrongType (String.ofList record.type))

/-- Bytes as the JSON text of a buffer. -/
def json (content : Bytes) : String :=
  "\x7b\"type\":\"Buffer\",\"data\":[" ++
    ",".intercalate (content.map fun b => toString b.toNat) ++ "]\x7d"

end Bytes

end Octets
