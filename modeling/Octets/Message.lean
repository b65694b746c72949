import Octets.Text.Cutting

/-!
# Messages

How the message of a fault is put together. What it shows of the received value is taken out of
longer sequences by ranges, and what is left out is counted by differences:

* `Bytes.toBufferText`, `Bytes.toItemsText` — the beginning of a byte sequence;
* `Text.Grouped.separate` — the digits of a number, three by three from the end;
* `Fault.build` — the message.
-/

namespace Octets

/-! ## Byte sequences -/

namespace Bytes

/-- A buffer as it is shown. -/
def toBufferText (content : Bytes) : Except Stop String := do
  let first ← part content 0 (min content.length shownLimit)
  if shownLimit < content.length then
    let count ← difference content.length shownLimit
    return bufferText first (" " ++ leftOut count "byte")
  else return bufferText first ""

/-- A plain byte sequence as it is shown. -/
def toItemsText (content : Bytes) : Except Stop String := do
  if content.isEmpty then return "Uint8Array(0) []"
  else if itemLimit < content.length then
    let count ← difference content.length itemLimit
    return itemsText content.length (content.take itemLimit) [leftOut count "item"]
  else return itemsText content.length (content.take itemLimit) []

end Bytes

/-! ## Digits -/

namespace Text.Grouped

/-- The bytes of an encoded text from one character boundary to another. -/
def piece (bytes : Bytes) (start stop : Nat) : Except Stop Bytes :=
  if Utf8.isBoundary bytes start && Utf8.isBoundary bytes stop then part bytes start stop
  else .error (.trap .range)

/-- The bytes up to `stop`, with a mark before the last three of them and so on towards the
beginning, as long as more than three bytes are left after `start`. -/
def separateUpTo (bytes : Bytes) (start stop : Nat) : Except Stop Bytes :=
  if start + 4 ≤ stop then
    match h : difference stop 3 with
    | .ok low => do
      have hlow : low < stop := by
        have hdifference := difference_eq_ok_iff.mp h
        omega
      let last ← piece bytes low stop
      let before ← separateUpTo bytes start low
      return before ++ 0x5F :: last
    | .error e => .error e
  else piece bytes 0 stop
termination_by stop

/-- The text in threes; a leading minus belongs to the first group. -/
def separate (text : List Char) : Except Stop (List Char) := do
  let bytes := Utf8.encode text
  let start := if text.head? = some '-' then 1 else 0
  let grouped ← separateUpTo bytes start bytes.length
  return Utf8.decode grouped

end Text.Grouped

/-! ## Values and faults -/

namespace Value

/-- The text with its digits separated. -/
def toGroupedText (s : String) : Except Stop String := do
  let grouped ← Text.Grouped.separate s.toList
  return String.ofList grouped

/-- The argument as it is shown in a message. -/
def toShown : Operand → Except Stop String
  | .bytes content => content.toItemsText
  | .buffer content => content.toBufferText
  | other => return other.shown

/-- The received value of a range message. -/
def toReceived : Operand → Except Stop String
  | .number x =>
    if x.isWhole && decide (2 ^ groupingBits * Binary64.one < x.magnitude) then
      toGroupedText x.text
    else return x.shown
  | .bigInteger n => do
    let digits := decimalText n
    if BigInteger.exceeds n groupingBits then
      let grouped ← toGroupedText digits
      return grouped ++ "n"
    else return digits ++ "n"
  | other => other.toShown

end Value

namespace Fault

/-- The received value of a fault as it is written in its message. -/
def toReceived : Fault → Except Stop String
  | .outOfRange _ _ received => received.toReceived
  | .invalidValue _ received => received.toShown
  | f => return f.received

/-- The message of a fault. -/
def build (f : Fault) : Except Stop String := do
  let received ← f.toReceived
  return f.wording received

end Fault

end Octets
