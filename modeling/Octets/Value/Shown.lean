import Octets.Number.BigInteger
import Octets.Number.Text
import Octets.Text.Grouped
import Octets.Text.Hex
import Octets.Text.Quoted
import Octets.Value

/-!
# Arguments in messages

How an argument is written: as a text of its own (`Value.asText`), as it is shown in a message
(`Value.shown`), as the description of an argument of the wrong kind (`Value.described`), and as
the received value of a range message (`Value.received`).
-/

namespace Octets

/-- The decimal values of bytes, separated by commas. -/
def Bytes.listed (content : Bytes) : String :=
  ",".intercalate (content.map fun b => toString b.toNat)

/-- The number of bytes of a buffer that are shown. -/
def Bytes.shownLimit : Nat := 50

/-- The number of items of a plain byte sequence that are shown. -/
def Bytes.itemLimit : Nat := 100

/-- A count of things that are left out. -/
def leftOut (count : Nat) (thing : String) : String :=
  "... " ++ toString count ++ " more " ++ thing ++ (if 1 < count then "s" else "")

/-- Bytes as they are shown in a buffer, two digits per byte, and what follows them. -/
def Bytes.bufferText (first : Bytes) (tail : String) : String :=
  "<Buffer " ++ " ".intercalate (first.map fun b => String.ofList (Text.Hex.pair b)) ++ tail ++ ">"

/-- A buffer as it is shown: the first fifty bytes. -/
def Bytes.shownAsBuffer (content : Bytes) : String :=
  bufferText (content.take shownLimit)
    (if shownLimit < content.length then " " ++ leftOut (content.length - shownLimit) "byte"
    else "")

/-- The values of bytes as they are shown among items, and what follows them. -/
def Bytes.itemsText (count : Nat) (first : Bytes) (tail : List String) : String :=
  "Uint8Array(" ++ toString count ++ ") [ " ++
    ", ".intercalate (first.map (fun b => toString b.toNat) ++ tail) ++ " ]"

/-- A plain byte sequence as it is shown: the first hundred values. -/
def Bytes.shownAsItems (content : Bytes) : String :=
  if content.isEmpty then "Uint8Array(0) []"
  else
    itemsText content.length (content.take itemLimit)
      (if itemLimit < content.length then [leftOut (content.length - itemLimit) "item"] else [])

/-- A number as it is shown: unlike `Binary64.text`, the sign of a zero is kept. -/
def Binary64.shown (x : Binary64) : String :=
  if x.isZero && x.negative then "-0" else x.text

/-- The decimal text of an integer. -/
def decimalText (n : Int) : String := toString n

/-- The text cut to `kept` characters and dots, if it has more than `limit`. -/
def cutText (limit kept : Nat) (s : String) : String :=
  if limit < s.length then String.ofList (s.toList.take kept) ++ "..." else s

namespace Value

/-- The text of an argument, as when it names an encoding. -/
def asText : Operand → String
  | .undefined => "undefined"
  | .null => "null"
  | .bool b => if b then "true" else "false"
  | .number x => x.text
  | .bigInteger n => decimalText n
  | .text s => s
  | .bytes content => Bytes.listed content
  | .buffer content => Bytes.listed content

/-- The argument as it is shown in a message. -/
def shown : Operand → String
  | .undefined => "undefined"
  | .null => "null"
  | .bool b => if b then "true" else "false"
  | .number x => x.shown
  | .bigInteger n => decimalText n ++ "n"
  | .text s => String.ofList (Text.Quoted.quoted s.toList)
  | .bytes content => Bytes.shownAsItems content
  | .buffer content => Bytes.shownAsBuffer content

/-- What kind of argument was received. -/
def described (v : Operand) : String :=
  match v with
  | .undefined => "undefined"
  | .null => "null"
  | .bytes _ => "an instance of Uint8Array"
  | .buffer _ => "an instance of Buffer"
  | other => "type " ++ other.kind ++ " (" ++ cutText 28 25 other.shown ++ ")"

/-- The text with its digits grouped. -/
def groupedText (s : String) : String := String.ofList (Text.Grouped.group s.toList)

/-- Integers of a magnitude beyond this power of two are grouped. -/
def groupingBits : Nat := 32

/-- The received value of a range message: whole numbers beyond `2 ^ 32` are grouped. -/
def received : Operand → String
  | .number x =>
    if x.isWhole && decide (2 ^ groupingBits * Binary64.one < x.magnitude) then groupedText x.text
    else x.shown
  | .bigInteger n =>
    (if BigInteger.exceeds n groupingBits then groupedText (decimalText n) else decimalText n) ++
      "n"
  | other => other.shown

end Value

end Octets
