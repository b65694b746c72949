import Octets.Bytes
import Octets.Text.Utf16

/-!
# One byte per unit

latin1 stores the low byte of every 16-bit unit and reads a byte as the character of that number;
ascii does the same with the top bit cleared in both directions.
-/

namespace Octets.Text.SingleByte

/-- The low byte of a unit. -/
def lowByte (u : UInt16) : UInt8 := UInt8.ofNat (u.toNat % 256)

/-- The low seven bits of a byte. -/
def lowSeven (b : UInt8) : UInt8 := UInt8.ofNat (b.toNat % 128)

def encodeLatin1 (text : List Char) : Bytes := (Utf16.units text).map lowByte

def encodeAscii (text : List Char) : Bytes :=
  (Utf16.units text).map (lowSeven ∘ lowByte)

def decodeLatin1 (bytes : Bytes) : List Char := bytes.map fun b => Char.ofNat b.toNat

def decodeAscii (bytes : Bytes) : List Char := decodeLatin1 (bytes.map lowSeven)

/-- Every byte has its top bit clear. -/
def isAscii (bytes : Bytes) : Bool := bytes.all (decide <| · < 0x80)

@[simp] theorem length_encodeLatin1 (text : List Char) :
    (encodeLatin1 text).length = Utf16.unitLength text := by
  simp [encodeLatin1, Utf16.unitLength]

@[simp] theorem length_encodeAscii (text : List Char) :
    (encodeAscii text).length = Utf16.unitLength text := by
  simp [encodeAscii, Utf16.unitLength]

end Octets.Text.SingleByte
