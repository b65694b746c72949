import Octets.Encoding
import Octets.Proofs.Unicode

/-!
# Passing between texts and bytes and back

Hexadecimal, latin1 and both base64 texts of bytes are read as those bytes; ascii keeps seven bits
of each. The Unicode encodings of a text are read as that text. A text of byte characters is its
base64 text's text.

* `SingleByte.encodeLatin1_decodeLatin1`, `SingleByte.encodeAscii_decodeAscii`: one unit a byte.
* `Base64.payload_encode`: taking blanks and padding out of what was written leaves the digits of
  the six-bit values, in each of the three residues of the number of bytes.
* `Base64.decode?_encode`: base64 text is read as the bytes that it was written for.
* `Encoding.round_trips`: all encodings together.
-/

namespace Octets

/-! ## One byte per unit -/

namespace Text.SingleByte

/-- The characters of bytes have one unit each, of the same number. -/
theorem units_decodeLatin1 (bytes : Bytes) :
    Utf16.units (decodeLatin1 bytes) = bytes.map fun b => UInt16.ofNat b.toNat := by
  induction bytes with
  | nil => rfl
  | cons b rest ih =>
    have hb : b.toNat < 256 := b.toNat_lt
    have hchar : (Char.ofNat b.toNat).toNat = b.toNat := toNat_ofNat (.inl (by omega))
    have split : Utf16.units (decodeLatin1 (b :: rest)) =
        Utf16.charUnits (Char.ofNat b.toNat) ++ Utf16.units (decodeLatin1 rest) := rfl
    rw [split, ih, Utf16.charUnits, hchar, if_pos (by omega)]
    rfl

/-- The low byte of a unit below 256 is that number. -/
theorem lowByte_ofNat_toNat (b : UInt8) : lowByte (UInt16.ofNat b.toNat) = b := by
  have hb : b.toNat < 256 := b.toNat_lt
  have hunit : (UInt16.ofNat b.toNat).toNat = b.toNat :=
    UInt16.toNat_ofNat_of_lt' (show b.toNat < 65536 by omega)
  rw [lowByte, hunit, Nat.mod_eq_of_lt hb, UInt8.ofNat_toNat]

/-- The low seven bits are what is left when the top bit is cleared. -/
theorem lowSeven_eq_and (b : UInt8) : lowSeven b = b &&& 0x7F := by
  have hseven : b.toNat &&& 0x7F = b.toNat % 128 := Nat.and_two_pow_sub_one_eq_mod b.toNat 7
  apply UInt8.toNat_inj.mp
  rw [UInt8.toNat_and, show (0x7F : UInt8).toNat = 0x7F from rfl, hseven, lowSeven,
    UInt8.toNat_ofNat_of_lt' (show b.toNat % 128 < 256 by omega)]

/-- The latin1 text of bytes is written as those bytes. -/
theorem encodeLatin1_decodeLatin1 (bytes : Bytes) : encodeLatin1 (decodeLatin1 bytes) = bytes := by
  rw [encodeLatin1, units_decodeLatin1, List.map_map]
  exact (List.map_congr_left fun b _ => lowByte_ofNat_toNat b).trans (List.map_id bytes)

/-- Clearing the top bit twice is clearing it once. -/
theorem lowSeven_lowSeven (b : UInt8) : lowSeven (lowSeven b) = lowSeven b := by
  rw [lowSeven_eq_and, lowSeven_eq_and, UInt8.and_assoc]
  rfl

/-- The ascii text of bytes is written as those bytes with every top bit cleared. -/
theorem encodeAscii_decodeAscii (bytes : Bytes) :
    encodeAscii (decodeAscii bytes) = bytes.map (· &&& 0x7F) := by
  rw [encodeAscii, decodeAscii, units_decodeLatin1, List.map_map, List.map_map]
  apply List.map_congr_left
  intro b _
  simp only [Function.comp_apply]
  rw [lowByte_ofNat_toNat, lowSeven_lowSeven, lowSeven_eq_and]

end Text.SingleByte

/-! ## base64 -/

namespace Text.Base64

/-- The values of a byte sequence have six bits. -/
theorem sextets_lt (bytes : Bytes) : ∀ v ∈ sextets bytes, v < 64 := by
  fun_induction sextets bytes with
  | case1 a b c rest ih =>
    have ha := a.toNat_lt
    have hb := b.toNat_lt
    have hc := c.toNat_lt
    simp only [List.mem_cons]
    rintro v (rfl | rfl | rfl | rfl | hv)
    · omega
    · omega
    · omega
    · omega
    · exact ih v hv
  | case2 a b =>
    have ha := a.toNat_lt
    have hb := b.toNat_lt
    simp only [List.mem_cons, List.not_mem_nil, or_false]
    rintro v (rfl | rfl | rfl)
    · omega
    · omega
    · omega
  | case3 a =>
    have ha := a.toNat_lt
    simp only [List.mem_cons, List.not_mem_nil, or_false]
    rintro v (rfl | rfl)
    · omega
    · omega
  | case4 => simp

/-- Three bytes are four values, and the one or two bytes that are left one value more than
there are bytes. -/
theorem length_sextets (bytes : Bytes) :
    (sextets bytes).length = bytes.length + (bytes.length + 2) / 3 := by
  fun_induction sextets bytes with
  | case1 a b c rest ih => simp only [List.length_cons, ih]; omega
  | case2 a b => simp
  | case3 a => simp
  | case4 => rfl

/-- A character of the alphabet is neither blank nor the padding. -/
theorem digit_plain (alphabet : Alphabet) {v : Nat} (h : v < 64) :
    isBlank (alphabet.digit v) = false ∧ alphabet.digit v ≠ '=' := by
  have every : ∀ v < 64, isBlank (alphabet.digit v) = false ∧ alphabet.digit v ≠ '=' := by
    cases alphabet <;> decide
  exact every v h

/-- A padding character is taken from the end. -/
theorem dropPad_append_pad (text : List Char) : dropPad (text ++ ['=']) = text := by
  simp [dropPad]

/-- From a text without padding characters nothing is taken. -/
theorem dropPad_of_not_mem {text : List Char} (h : '=' ∉ text) : dropPad text = text := by
  unfold dropPad
  exact if_neg fun hlast => h (List.mem_of_getLast? hlast)

/-- Taking out blanks and padding leaves the text that they were put around: padding that fills
the text up to a multiple of four is taken off, and there is none to take where it was left
out. -/
theorem payload_append_replicate {text : List Char} {pads : Nat}
    (hblank : ∀ c ∈ text, isBlank c = false) (hpad : '=' ∉ text) (hle : pads ≤ 2)
    (hfull : pads = 0 ∨ (text.length + pads) % 4 = 0) :
    payload (text ++ List.replicate pads '=') = text := by
  have hdense : (text ++ List.replicate pads '=').filter (!isBlank ·) =
      text ++ List.replicate pads '=' := by
    rw [List.filter_eq_self]
    intro c hc
    rcases List.mem_append.mp hc with hc | hc
    · rw [hblank c hc]; rfl
    · rw [List.eq_of_mem_replicate hc]; rfl
  unfold payload
  rw [hdense]
  have hlen : (text ++ List.replicate pads '=').length = text.length + pads := by simp
  have hnone := dropPad_of_not_mem hpad
  -- One case for each number of padding characters.
  match pads, hle with
  | 0, _ =>
    simp only [List.replicate_zero, List.append_nil]
    split
    · rw [hnone, hnone]
    · rfl
  | 1, _ =>
    rw [if_pos (by rw [hlen]; omega), List.replicate_one, dropPad_append_pad, hnone]
  | 2, _ =>
    rw [if_pos (by rw [hlen]; omega), List.replicate_succ', ← List.append_assoc,
      dropPad_append_pad, List.replicate_one, dropPad_append_pad]

/-- What is left of the text of a byte sequence are the digits of its values. -/
theorem payload_encode (alphabet : Alphabet) (bytes : Bytes) :
    payload (encode alphabet bytes) = (sextets bytes).map alphabet.digit := by
  have hplain : ∀ c ∈ (sextets bytes).map alphabet.digit, isBlank c = false ∧ c ≠ '=' := by
    intro c hc
    obtain ⟨v, hv, rfl⟩ := List.mem_map.mp hc
    exact digit_plain alphabet (sextets_lt bytes v hv)
  have hblank := fun c hc => (hplain c hc).1
  have hpad : '=' ∉ (sextets bytes).map alphabet.digit := fun h => (hplain _ h).2 rfl
  have hlen : ((sextets bytes).map alphabet.digit).length =
      bytes.length + (bytes.length + 2) / 3 := by rw [List.length_map, length_sextets]
  cases alphabet with
  | standard => exact payload_append_replicate hblank hpad (by omega) (.inr (by rw [hlen]; omega))
  | urlSafe => exact payload_append_replicate hblank hpad (Nat.zero_le 2) (.inl rfl)

/-- The digits of six-bit values are read as these values. -/
theorem mapM_value?_digit (alphabet : Alphabet) {values : List Nat} (h : ∀ v ∈ values, v < 64) :
    (values.map alphabet.digit).mapM alphabet.value? = some values := by
  induction values with
  | nil => rfl
  | cons v rest ih =>
    rw [List.forall_mem_cons] at h
    rw [List.map_cons, List.mapM_cons, Alphabet.value?_digit alphabet h.1, ih h.2]
    rfl

/-- The text of a byte sequence is read as that sequence. -/
theorem decode?_encode (alphabet : Alphabet) (bytes : Bytes) :
    decode? alphabet (encode alphabet bytes) = some bytes := by
  unfold decode?
  rw [payload_encode, mapM_value?_digit alphabet (sextets_lt bytes), List.length_map,
    length_sextets, if_neg (by omega), Option.map_some, ofSextets_sextets]

end Text.Base64

/-! ## All encodings -/

namespace Encoding

open Text

/-- base64 text is read as the bytes that it was written for. -/
theorem ofBase64_encode (alphabet : Base64.Alphabet) (bytes : Bytes) :
    ofBase64 alphabet (Base64.encode alphabet bytes) = .ok bytes := by
  rw [ofBase64, Base64.decode?_encode]

/-- The bytes of the characters that bytes stand for are these bytes. -/
theorem decodeLatin1_map_ofNat {text : List Char} (h : ∀ c ∈ text, c.toNat < 256) :
    SingleByte.decodeLatin1 (text.map fun c => UInt8.ofNat c.toNat) = text := by
  rw [SingleByte.decodeLatin1, List.map_map]
  refine (List.map_congr_left fun c hc => ?_).trans (List.map_id text)
  rw [Function.comp_apply, UInt8.toNat_ofNat_of_lt' (h c hc), Char.ofNat_toNat]
  rfl

/-- Where there is base64 text of a text, all its characters are bytes. -/
theorem base64OfText_eq_ok {s t : String} (h : base64OfText s = .ok t) :
    (∀ c ∈ s.toList, c.toNat < 256) ∧
      t.toList = Base64.encode .standard (s.toList.map fun c => UInt8.ofNat c.toNat) := by
  unfold base64OfText at h
  split at h
  case isTrue hall =>
    simp only [Except.ok.injEq] at h
    subst h
    exact ⟨by simpa using hall, String.toList_ofList⟩
  case isFalse => cases h

/-- The text of the base64 text of a text is that text. -/
theorem textOfBase64_of_base64OfText {s t : String} (h : base64OfText s = .ok t) :
    textOfBase64 t = .ok s := by
  obtain ⟨hbytes, ht⟩ := base64OfText_eq_ok h
  rw [textOfBase64, ht, ofBase64_encode, Except.map, decodeLatin1_map_ofNat hbytes,
    String.ofList_toList]

/-- There is base64 text of the texts whose characters go up to U+00FF, and of no others. -/
theorem exists_base64OfText_iff (s : String) :
    (∃ t, base64OfText s = .ok t) ↔ ∀ c ∈ s.toList, c.toNat ≤ 0xFF := by
  constructor
  · rintro ⟨t, ht⟩ c hc
    exact Nat.le_of_lt_succ ((base64OfText_eq_ok ht).1 c hc)
  · intro h
    have hall : s.toList.all (decide <| ·.toNat < 256) = true := by
      simpa using fun c hc => Nat.lt_succ_of_le (h c hc)
    exact ⟨_, if_pos hall⟩

/-- Bytes are read back from their text where the text keeps them, seven bits of each are from
ascii text, a text is read back from its bytes in both Unicode encodings, and exactly the texts of
byte characters have a base64 text, from which they are read back. -/
theorem round_trips :
    (∀ bytes : Bytes, ∀ e ∈ [latin1, hex, base64, base64url],
      encode e (decode e bytes) = .ok bytes) ∧
    (∀ bytes : Bytes, encode ascii (decode ascii bytes) = .ok (bytes.map (· &&& 0x7F))) ∧
    (∀ t : String, ∀ e ∈ [utf8, utf16le],
      ∃ bytes, encode e t = .ok bytes ∧ decode e bytes = t) ∧
    (∀ s : String, ((∃ t, base64OfText s = .ok t) ↔ ∀ c ∈ s.toList, c.toNat ≤ 0xFF) ∧
      ∀ t, base64OfText s = .ok t → textOfBase64 t = .ok s) := by
  refine ⟨?_, ?_, ?_, fun s => ⟨exists_base64OfText_iff s, fun t => textOfBase64_of_base64OfText⟩⟩
  · intro bytes e he
    simp only [List.mem_cons, List.not_mem_nil, or_false] at he
    rcases he with rfl | rfl | rfl | rfl
    · simp only [encode, decode, String.toList_ofList, SingleByte.encodeLatin1_decodeLatin1]
    · simp only [encode, decode, String.toList_ofList, Hex.decode_encode]
    · simp only [encode, decode, String.toList_ofList, ofBase64_encode]
    · simp only [encode, decode, String.toList_ofList, ofBase64_encode]
  · intro bytes
    simp only [encode, decode, String.toList_ofList, SingleByte.encodeAscii_decodeAscii]
  · intro t e he
    simp only [List.mem_cons, List.not_mem_nil, or_false] at he
    rcases he with rfl | rfl
    · exact ⟨_, rfl, by simp only [decode, Utf8.decode_encode, String.ofList_toList]⟩
    · exact ⟨_, rfl, by simp only [decode, Utf16.decode_encode, String.ofList_toList]⟩

/-- Two characters, the first above `0x7F`, whose base64 text ends in one padding character. -/
theorem round_trips_padded :
    base64OfText "é~" = .ok "6X4=" ∧ textOfBase64 "6X4=" = .ok "é~" := by
  have h : base64OfText "é~" = .ok "6X4=" := rfl
  exact ⟨h, (round_trips.2.2.2 "é~").2 "6X4=" h⟩

end Encoding

end Octets
