import Octets.Fault
import Octets.Text.Base64
import Octets.Text.Hex
import Octets.Text.SingleByte
import Octets.Text.Utf16
import Octets.Text.Utf8

/-!
# Encodings

The seven text encodings, their names, and the passage between texts and bytes in each of them.
Only base64 text can be refused: every other text has bytes in every encoding, and every byte
sequence has a text.
-/

namespace Octets

/-- A text encoding. -/
inductive Encoding where
  | utf8
  | utf16le
  | latin1
  | ascii
  | base64
  | base64url
  | hex
deriving DecidableEq

namespace Encoding

/-! ## Names -/

/-- The name of an encoding. -/
def name : Encoding → String
  | .utf8 => "utf8"
  | .utf16le => "utf16le"
  | .latin1 => "latin1"
  | .ascii => "ascii"
  | .base64 => "base64"
  | .base64url => "base64url"
  | .hex => "hex"

/-- All names of an encoding. The empty name is one of utf8's. -/
def names : Encoding → List String
  | .utf8 => ["utf8", "utf-8", ""]
  | .utf16le => ["utf16le", "utf-16le", "ucs2", "ucs-2"]
  | .latin1 => ["latin1", "binary"]
  | .ascii => ["ascii"]
  | .base64 => ["base64"]
  | .base64url => ["base64url"]
  | .hex => ["hex"]

/-- All encodings. -/
def all : List Encoding := [.utf8, .utf16le, .latin1, .ascii, .base64, .base64url, .hex]

/-- The encoding of a name, in either case of its letters. -/
def ofName? (s : String) : Option Encoding :=
  all.find? fun e => e.names.contains (String.ofList (s.toList.map Char.toLower))

/-- The name of an encoding is one of its names, and of no other. -/
theorem ofName?_name (e : Encoding) : ofName? e.name = some e := by
  cases e <;> decide

/-- The encoding of a name. -/
def ofName (s : String) : Except Fault Encoding :=
  match ofName? s with
  | some e => .ok e
  | none => .error (.unknownEncoding s)

/-- The name is not empty and is that of an encoding. -/
def isName (s : String) : Bool := s != "" && (ofName? s).isSome

/-- The argument is a text that is not empty and is the name of an encoding. -/
def isNamedBy : Operand → Bool
  | .text s => isName s
  | _ => false

/-- The encoding named by an argument; utf8 if it is missing. -/
def ofArgument (v : Operand) : Except Fault Encoding :=
  if v.isUndefined then .ok .utf8 else ofName v.asText

/-- The encoding named by a text argument; utf8 for an argument of any other kind. -/
def ofText (v : Operand) : Except Fault Encoding :=
  match v with
  | .text s => ofName s
  | _ => .ok .utf8

/-- The encoding named by an argument, for which the empty name does not stand. -/
def ofNonempty (v : Operand) : Except Fault Encoding :=
  if v.asText = "" then .error (.unknownEncoding "") else ofName v.asText

/-! ## Texts and bytes -/

/-- The bytes of base64 text. -/
def ofBase64 (alphabet : Text.Base64.Alphabet) (text : List Char) : Except Fault Bytes :=
  match Text.Base64.decode? alphabet text with
  | some bytes => .ok bytes
  | none => .error .malformedText

/-- The bytes of a text. -/
def encode (e : Encoding) (s : String) : Except Fault Bytes :=
  match e with
  | .utf8 => .ok (Text.Utf8.encode s.toList)
  | .utf16le => .ok (Text.Utf16.encode s.toList)
  | .latin1 => .ok (Text.SingleByte.encodeLatin1 s.toList)
  | .ascii => .ok (Text.SingleByte.encodeAscii s.toList)
  | .base64 => ofBase64 .standard s.toList
  | .base64url => ofBase64 .urlSafe s.toList
  | .hex => .ok (Text.Hex.decode s.toList)

/-- Only base64 text is refused, and only because it is not correctly encoded. -/
theorem encode_eq_error {e : Encoding} {s : String} {f : Fault} (h : e.encode s = .error f) :
    (e = .base64 ∨ e = .base64url) ∧ f = .malformedText := by
  have hbase64 : ∀ alphabet, ofBase64 alphabet s.toList = .error f → f = .malformedText := by
    intro alphabet h
    unfold ofBase64 at h
    split at h
    · nomatch h
    · exact (Except.error.inj h).symm
  cases e with
  | base64 => exact ⟨.inl rfl, hbase64 _ h⟩
  | base64url => exact ⟨.inr rfl, hbase64 _ h⟩
  | _ => nomatch h

/-- The text of a byte sequence. -/
def decode (e : Encoding) (bytes : Bytes) : String :=
  String.ofList <| match e with
    | .utf8 => Text.Utf8.decode bytes
    | .utf16le => Text.Utf16.decode bytes
    | .latin1 => Text.SingleByte.decodeLatin1 bytes
    | .ascii => Text.SingleByte.decodeAscii bytes
    | .base64 => Text.Base64.encode .standard bytes
    | .base64url => Text.Base64.encode .urlSafe bytes
    | .hex => Text.Hex.encode bytes

/-- The number of bytes of a text, told from its characters alone; more than there are where
hex or base64 text has characters that spell nothing. -/
def byteLength (e : Encoding) (s : String) : Nat :=
  match e with
  | .utf8 => Text.Utf8.byteLength s.toList
  | .utf16le => 2 * Text.Utf16.unitLength s.toList
  | .latin1 => Text.Utf16.unitLength s.toList
  | .ascii => Text.Utf16.unitLength s.toList
  | .base64 => Text.Base64.byteLength s.toList
  | .base64url => Text.Base64.byteLength s.toList
  | .hex => Text.Hex.byteLength s.toList

/-- The bytes of a text that are written into `room` bytes: utf8 writes whole characters only and
utf16le whole units only; all others are cut. -/
def encodeInto (e : Encoding) (room : Nat) (s : String) : Except Fault Bytes :=
  match e with
  | .utf8 => .ok (Text.Utf8.encode (Text.Utf8.fitting room s.toList))
  | .utf16le => .ok ((Text.Utf16.encode s.toList).take (room / 2 * 2))
  | other => (other.encode s).map (List.take room)

/-- What is written fits. -/
theorem length_encodeInto_le {e : Encoding} {room : Nat} {s : String} {bytes : Bytes}
    (h : e.encodeInto room s = .ok bytes) : bytes.length ≤ room := by
  have cut : ∀ x : Except Fault Bytes, x.map (List.take room) = .ok bytes →
      bytes.length ≤ room := by
    intro x hx
    cases x with
    | error f => cases hx
    | ok b =>
      simp only [Except.map, Except.ok.injEq] at hx
      subst hx
      simp only [List.length_take]
      omega
  cases e with
  | utf8 =>
    simp only [encodeInto, Except.ok.injEq] at h
    subst h
    simpa using Text.Utf8.byteLength_fitting_le room s.toList
  | utf16le =>
    simp only [encodeInto, Except.ok.injEq] at h
    subst h
    simp only [List.length_take]
    omega
  | latin1 => exact cut (encode .latin1 s) h
  | ascii => exact cut (encode .ascii s) h
  | base64 => exact cut (encode .base64 s) h
  | base64url => exact cut (encode .base64url s) h
  | hex => exact cut (encode .hex s) h

/-! ## base64 of texts -/

/-- The text whose characters are the bytes of base64 text. -/
def textOfBase64 (s : String) : Except Fault String :=
  (ofBase64 .standard s.toList).map fun bytes =>
    String.ofList (Text.SingleByte.decodeLatin1 bytes)

/-- The base64 text of a text whose characters are bytes. -/
def base64OfText (s : String) : Except Fault String :=
  if s.toList.all (decide <| ·.toNat < 256) then
    .ok (String.ofList
      (Text.Base64.encode .standard (s.toList.map fun c => UInt8.ofNat c.toNat)))
  else .error .wideCharacter

end Encoding

end Octets
