import Octets.Encoding
import Octets.Number.Wrapped
import Octets.Text.Utf16
import Octets.Value.Coercion

/-!
# Search

Finding a needle in the bytes of a buffer, forward from a start or backward from it. The needle
is turned into bytes first: a number is one byte, a text is encoded, bytes stand for themselves.

The start is a coerced offset: rounded toward zero, moved into the signed 32-bit integers, and
counted from the end where it is negative; a text in its place is the encoding. An empty needle is
found at the start, moved into the bytes. In utf16le whole 16-bit units are compared, at even
positions only.
-/

namespace Octets.Search

/-- Which way to look. -/
inductive Direction where
  | forward
  | backward
deriving DecidableEq

/-! ## Sequences -/

/-- The needle stands at position `i`. -/
def occursAt {α : Type} [BEq α] (hay needle : List α) (i : Nat) : Bool :=
  (hay.drop i).take needle.length == needle

/-- The positions that are looked at, in order: from the start to the last place with room for
the needle, or back to the first. -/
def positions (last start : Nat) : Direction → List Nat
  | .forward => List.range' start (last + 1 - start)
  | .backward => (List.range (min start last + 1)).reverse

/-- The needle stands at a position if it is what is read there. -/
theorem occursAt_iff {α : Type} [BEq α] [LawfulBEq α] {hay needle : List α} {i : Nat} :
    occursAt hay needle i = true ↔ (hay.drop i).take needle.length = needle := by
  simp [occursAt]

theorem mem_positions_forward {last start i : Nat} :
    i ∈ positions last start .forward ↔ start ≤ i ∧ i ≤ last := by
  simp only [positions, List.mem_range'_1]
  omega

theorem mem_positions_backward {last start i : Nat} :
    i ∈ positions last start .backward ↔ i ≤ start ∧ i ≤ last := by
  simp only [positions, List.mem_reverse, List.mem_range]
  omega

/-- The first position, in the given direction, at which the needle stands. -/
def find {α : Type} [BEq α] (hay needle : List α) (start : Nat) (d : Direction) : Option Nat :=
  if hay.length < needle.length then none
  else (positions (hay.length - needle.length) start d).find? (occursAt hay needle)

/-! ## Bytes -/

/-- Where a search begins: the offset, counted from the end if it is negative. A negative answer
means that nothing can be found. -/
def startPosition (length : Nat) (offset : Int) (needleLength : Nat) (d : Direction) : Int :=
  if offset < 0 then
    if 0 ≤ wrapped (length + offset) then wrapped (length + offset)
    else if d = .forward ∨ needleLength = 0 then 0
    else -1
  else if wrapped (offset + needleLength) ≤ wrapped length then offset
  else if needleLength = 0 then wrapped length
  else if d = .forward then -1
  else wrapped (length - 1)

/-- What is left to do once it is known where a search begins. -/
inductive Task where
  /-- The answer is known without looking. -/
  | answered (p : Option Nat)
  /-- Look for the bytes. -/
  | bytes (start : Nat)
  /-- Look for the 16-bit units. -/
  | units (start : Nat)

/-- What is left of a search for a needle among `hayLength` bytes. -/
def task (hayLength needleLength : Nat) (offset : Int) (d : Direction) (wide : Bool) : Task :=
  let start := startPosition hayLength offset needleLength d
  if needleLength = 0 then .answered (some start.toNat)
  else if hayLength = 0 ∨ start < 0 then .answered none
  else if hayLength < needleLength ∨ (d = .forward ∧ hayLength < start.toNat + needleLength) then
    .answered none
  else if wide then
    if hayLength < 2 ∨ needleLength < 2 then .answered none else .units (start.toNat / 2)
  else .bytes start.toNat

/-- The position of the needle; `wide` compares 16-bit units. -/
def searchBytes (hay needle : Bytes) (offset : Int) (d : Direction) (wide : Bool) : Option Nat :=
  match task hay.length needle.length offset d wide with
  | .answered p => p
  | .bytes start => find hay needle start d
  | .units start =>
    (find (Text.Utf16.unitsOfBytes hay) (Text.Utf16.unitsOfBytes needle) start d).map (· * 2)

/-! ## Arguments -/

/-- The encoding named by an argument, if it names one. -/
def encoding? (v : Operand) : Option Encoding :=
  if v.isUndefined then some .utf8 else Encoding.ofName? v.asText

/-- What is looked for, and whether in 16-bit units. -/
structure Needle where
  bytes : Bytes
  wide : Bool

/-- Bytes that are looked for under an encoding are compared in 16-bit units. -/
def isWide (encoding : Operand) : Bool := encoding? encoding == some .utf16le

/-- The needle of a text. The name of the encoding must be known, and not empty. -/
def textNeedle (s : String) (encoding : Operand) : Except Fault Needle :=
  match if encoding == .text "" then none else encoding? encoding with
  | none => .error (.unknownEncoding encoding.asText)
  | some e => (e.encode s).map fun bytes => ⟨bytes, e == .utf16le⟩

/-- Why an argument is no needle. -/
def noNeedle (v : Operand) : Fault :=
  .wrongType "value" "of type number or string or an instance of Buffer or Uint8Array" v

/-- The needle of an argument. Only a text needs the name of an encoding to be known. -/
def needle (v encoding : Operand) : Except Fault Needle :=
  match v with
  | .number x => .ok ⟨[x.toByte], false⟩
  | .text s => textNeedle s encoding
  | .bytes content => .ok ⟨content, isWide encoding⟩
  | .buffer content => .ok ⟨content, isWide encoding⟩
  | other => .error (noNeedle other)

/-- The number of the offset of a search; a text in its place is not a number. -/
def number (position : Operand) : Except Fault Binary64 :=
  match position with
  | .text _ => .ok .nan
  | other => other.toNumber

/-- The encoding of a search: a text in the place of the offset, if there is one. -/
def encodingOf {ω : Type} (position encoding : Value ω) : Value ω :=
  if position.isText then position else encoding

/-- The offset of a search among `length` bytes: what is not a number stands for the end at which
the search begins. -/
def offset (length : Nat) (d : Direction) (x : Binary64) : Int :=
  if x.isNaN then
    match d with
    | .forward => 0
    | .backward => length
  else x.truncClamped (-0x80000000) 0x7FFFFFFF

end Octets.Search

namespace Octets.Content

open Search

/-- The position of a needle in the bytes. -/
def indexOf (content : Bytes) (value position encoding : Operand) (d : Direction) :
    Except Fault (Option Nat) := do
  let x ← Search.number position
  let n ← needle value (encodingOf position encoding)
  return searchBytes content n.bytes (Search.offset content.length d x) d n.wide

/-- The needle stands at or after the offset. -/
def includes (content : Bytes) (value position encoding : Operand) : Except Fault Bool :=
  (indexOf content value position encoding .forward).map Option.isSome

end Octets.Content
