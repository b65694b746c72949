import Octets.Proofs.Forgiving

/-!
# Lengths told in advance

How many bytes a text has is told from its characters alone (`Encoding.byteLength`). For utf8,
utf16le, latin1 and ascii this is the number of bytes that encoding gives. Hexadecimal and base64
text may have characters that spell nothing, blanks among them, which are counted too; the number
is then too great, and never too small. For the text of bytes it is right, in every encoding that
keeps one character or more for each byte.

The estimate of base64 text and its reading both take `=` from the end, but not from the same text:
the reading takes out the blanks first, and takes no `=` unless the length is a multiple of four.

* `Base64.payload_sublist` — what is read is a part of what is counted;
* `Base64.dropPad_dropPad_encode` — what is counted of the text of bytes are its digits;
* `Encoding.byteLength_bounds` — all encodings together.
-/

namespace Octets

namespace Text

/-- A text has as many bytes as characters at least. -/
theorem Utf8.length_le_byteLength (text : List Char) : text.length ≤ byteLength text := by
  induction text with
  | nil => exact Nat.le_refl 0
  | cons c rest ih =>
    have hpos := width_pos c
    simp only [List.length_cons, byteLength]
    omega

/-! ## Hexadecimal text -/

namespace Hex

/-- A byte is spelled by two bytes of text. -/
theorem length_decode_le (text : List Char) : (decode text).length ≤ byteLength text := by
  have hpairs := length_decodePairs_le (Utf8.encode text)
  rwa [Utf8.length_encode] at hpairs

theorem lt_of_mem_encode {bytes : Bytes} : ∀ c ∈ encode bytes, c.toNat < 0x80 := by
  intro c hc
  obtain ⟨b, -, hc⟩ := List.mem_flatMap.mp hc
  have hb : b.toNat < 256 := b.toNat_lt
  simp only [pair, List.mem_cons, List.not_mem_nil, or_false] at hc
  obtain rfl | rfl := hc
  · exact lowerDigit_lt (by omega)
  · exact lowerDigit_lt (by omega)

/-- The text of bytes is counted as they are. -/
theorem byteLength_encode (bytes : Bytes) : byteLength (encode bytes) = bytes.length := by
  have hwidth : Utf8.byteLength (encode bytes) = (encode bytes).length :=
    Base64.Measure.length_eq lt_of_mem_encode .bytes
  rw [byteLength, hwidth, length_encode]
  omega

end Hex

/-! ## base64 text -/

namespace Base64

theorem dropPad_sublist (text : List Char) : (dropPad text).Sublist text := by
  unfold dropPad
  split
  · exact List.dropLast_sublist text
  · exact List.Sublist.refl text

/-- An `=` is taken from a text from which other characters are deleted if it is taken from the
text. It may also be taken where only deleted characters stand behind it. -/
theorem dropPad_filter_cases (keep : Char → Bool) (hpad : keep '=' = true) (text : List Char) :
    dropPad text = text ∨ dropPad (text.filter keep) = (dropPad text).filter keep := by
  rcases dropPad_cases text with ⟨-, hsame⟩ | htext
  · exact .inl hsame
  · right
    have hlast : [('=' : Char)].filter keep = ['='] := by simp [hpad]
    conv_lhs => rw [htext, List.filter_append, hlast, dropPad_append_pad]

/-- What is read is a part of what is counted. -/
theorem payload_sublist {alphabet : Alphabet} {text : List Char}
    (h : ∀ c ∈ payload text, c ∈ alphabet.characters) :
    (payload text).Sublist (dropPad (dropPad text)) := by
  have hdense : (text.filter (!isBlank ·)).Sublist text := List.filter_sublist
  unfold payload at h ⊢
  dsimp only at h ⊢
  split at h
  · rename_i hfull
    rw [if_pos hfull]
    have htwice := (dropPad_sublist (dropPad (text.filter (!isBlank ·)))).trans (dropPad_sublist _)
    -- An `=` that is counted ends what is read as well, once and a second time.
    rcases dropPad_filter_cases (!isBlank ·) rfl text with hsame | hfirst
    · rw [hsame, hsame]
      exact htwice.trans hdense
    · rw [hfirst]
      rcases dropPad_filter_cases (!isBlank ·) rfl (dropPad text) with hsame | hsecond
      · rw [hsame]
        exact (dropPad_sublist _).trans List.filter_sublist
      · rw [hsecond]
        exact List.filter_sublist
  · rename_i hpart
    rw [if_neg hpart]
    -- There is no `=` in the text, since it would be read.
    have hnone : '=' ∉ text := by
      intro hmem
      have hread := h '=' (List.mem_filter.mpr ⟨hmem, rfl⟩)
      exact absurd hread (by cases alphabet <;> decide)
    rw [dropPad_of_not_mem hnone, dropPad_of_not_mem hnone]
    exact hdense

/-- Text that is read has at most as many bytes as are counted. -/
theorem length_le_of_decode? {alphabet : Alphabet} {text : List Char} {bytes : Bytes}
    (h : decode? alphabet text = some bytes) : bytes.length ≤ byteLength text := by
  obtain ⟨⟨hmem, hlength⟩, rfl⟩ := decode?_eq_some_iff.mp h
  obtain ⟨hcount, -⟩ := bits_ofSextets (idxOf_lt hmem) (by rwa [List.length_map])
  have hpart := (payload_sublist hmem).length_le
  have hbytes := Utf8.length_le_byteLength (dropPad (dropPad text))
  rw [hcount, List.length_map, byteLength]
  omega

theorem not_mem_digits (alphabet : Alphabet) (bytes : Bytes) :
    '=' ∉ (sextets bytes).map alphabet.digit := by
  intro hmem
  obtain ⟨v, hv, heq⟩ := List.mem_map.mp hmem
  exact (digit_plain alphabet (sextets_lt bytes v hv)).2 heq

/-- Without its padding, the text of bytes consists of the digits of their values. -/
theorem dropPad_dropPad_encode (alphabet : Alphabet) (bytes : Bytes) :
    dropPad (dropPad (encode alphabet bytes)) = (sextets bytes).map alphabet.digit := by
  symm
  have hlast : ((sextets bytes).map alphabet.digit).getLast? ≠ some '=' :=
    fun h => not_mem_digits alphabet bytes (List.mem_of_getLast? h)
  rw [dropPad_dropPad_iff]
  cases alphabet with
  | standard => exact ⟨(3 - bytes.length % 3) % 3, by omega, rfl, fun _ => hlast⟩
  | urlSafe => exact ⟨0, by omega, rfl, fun _ => hlast⟩

/-- The text of bytes is counted as they are. -/
theorem byteLength_encode (alphabet : Alphabet) (bytes : Bytes) :
    byteLength (encode alphabet bytes) = bytes.length := by
  have hascii : ∀ c ∈ (sextets bytes).map alphabet.digit, c.toNat < 0x80 := by
    intro c hc
    obtain ⟨v, hv, rfl⟩ := List.mem_map.mp hc
    have hdigit : alphabet.digit v ∈ alphabet.characters :=
      Alphabet.mem_characters_iff.mpr ⟨v, sextets_lt bytes v hv, rfl⟩
    exact Alphabet.lt_of_mem_characters hdigit
  have hwidth : Utf8.byteLength ((sextets bytes).map alphabet.digit) =
      bytes.length + (bytes.length + 2) / 3 := by
    rw [← length_sextets, ← List.length_map alphabet.digit]
    exact Measure.length_eq hascii .bytes
  rw [byteLength, dropPad_dropPad_encode, hwidth]
  omega

/-- Padded text has four characters for every three bytes, and for those that are left over. -/
theorem length_encode_standard (bytes : Bytes) :
    (encode .standard bytes).length = 4 * ((bytes.length + 2) / 3) := by
  simp only [encode, padding, List.length_append, List.length_map, length_sextets,
    List.length_replicate]
  omega

end Base64

end Text

/-! ## All encodings -/

namespace Encoding

open Text

/-- Where every character has its bytes, they are as many as are told in advance. -/
theorem length_eq_byteLength {e : Encoding} {t : String} {bytes : Bytes}
    (he : e ∈ [utf8, utf16le, latin1, ascii]) (h : e.encode t = .ok bytes) :
    bytes.length = e.byteLength t := by
  simp only [List.mem_cons, List.not_mem_nil, or_false] at he
  obtain rfl | rfl | rfl | rfl := he
  · cases h
    exact Utf8.length_encode t.toList
  · cases h
    exact Utf16.length_encode t.toList
  · cases h
    exact SingleByte.length_encodeLatin1 t.toList
  · cases h
    exact SingleByte.length_encodeAscii t.toList

/-- A text has at most as many bytes as are told in advance. -/
theorem length_le_byteLength {e : Encoding} {t : String} {bytes : Bytes}
    (h : e.encode t = .ok bytes) : bytes.length ≤ e.byteLength t := by
  cases e with
  | hex =>
    cases h
    exact Hex.length_decode_le t.toList
  | base64 => exact Base64.length_le_of_decode? (Base64.ofBase64_eq_ok_iff.mp h)
  | base64url => exact Base64.length_le_of_decode? (Base64.ofBase64_eq_ok_iff.mp h)
  | _ => exact Nat.le_of_eq (length_eq_byteLength (by decide) h)

/-- Of the text of bytes as many are told in advance as there are. -/
theorem byteLength_decode {e : Encoding} (he : e ∈ [latin1, ascii, hex, base64, base64url])
    (bytes : Bytes) : e.byteLength (e.decode bytes) = bytes.length := by
  have hunits : ∀ bytes, Utf16.unitLength (SingleByte.decodeLatin1 bytes) = bytes.length := by
    intro bytes
    rw [Utf16.unitLength, SingleByte.units_decodeLatin1, List.length_map]
  simp only [List.mem_cons, List.not_mem_nil, or_false] at he
  obtain rfl | rfl | rfl | rfl | rfl := he
  · simp only [byteLength, decode, String.toList_ofList, hunits]
  · simp only [byteLength, decode, String.toList_ofList, SingleByte.decodeAscii, hunits,
      List.length_map]
  · simp only [byteLength, decode, String.toList_ofList, Hex.byteLength_encode]
  · simp only [byteLength, decode, String.toList_ofList, Base64.byteLength_encode]
  · simp only [byteLength, decode, String.toList_ofList, Base64.byteLength_encode]

/-- The number of bytes that is told in advance is at least that of the bytes of the text, and is
equal to it in utf8, utf16le, latin1 and ascii. It is also equal to it where the text is that of
bytes, in every encoding that has a character for each byte. base64 text of bytes has four
characters for each three of them, the last ones counted up, and ends in one `=` for each byte that
is missing to three. -/
theorem byteLength_bounds :
    (∀ (t : String) (e : Encoding) (bytes : Bytes), e.encode t = .ok bytes →
      bytes.length ≤ e.byteLength t ∧
        (e ∈ [utf8, utf16le, latin1, ascii] → bytes.length = e.byteLength t)) ∧
    (∀ bytes : Bytes, ∀ e ∈ [latin1, ascii, hex, base64, base64url],
      e.byteLength (e.decode bytes) = bytes.length) ∧
    ∀ bytes : Bytes,
      (base64.decode bytes).toList.length = 4 * ((bytes.length + 2) / 3) ∧
        ∃ digits, '=' ∉ digits ∧ (base64.decode bytes).toList =
          digits ++ List.replicate ((3 - bytes.length % 3) % 3) '=' := by
  refine ⟨?_, ?_, ?_⟩
  · intro t e bytes h
    exact ⟨length_le_byteLength h, fun he => length_eq_byteLength he h⟩
  · intro bytes e he
    exact byteLength_decode he bytes
  · intro bytes
    rw [decode, String.toList_ofList]
    exact ⟨Base64.length_encode_standard bytes, _, Base64.not_mem_digits .standard bytes, rfl⟩

/-- Text of one byte with blanks before and in its padding, of which only the last `=` is not
counted; and a character of two units. -/
theorem byteLength_bounds_padded :
    (base64.encode "Y Q=\n=" = .ok [0x61] ∧ 1 ≤ base64.byteLength "Y Q=\n=" ∧
      base64.byteLength "Y Q=\n=" = 3) ∧
    (utf16le.encode "😀" = .ok [0x3D, 0xD8, 0x00, 0xDE] ∧ 4 = utf16le.byteLength "😀") ∧
    base64url ∈ [latin1, ascii, hex, base64, base64url] ∧
      base64url.byteLength (base64url.decode [0x61, 0x62]) = 2 := by
  have hpadded : base64.encode "Y Q=\n=" = .ok [0x61] := rfl
  have hunits : utf16le.encode "😀" = .ok [0x3D, 0xD8, 0x00, 0xDE] := rfl
  exact ⟨⟨hpadded, (byteLength_bounds.1 _ _ _ hpadded).1, rfl⟩,
    ⟨hunits, (byteLength_bounds.1 _ _ _ hunits).2 (by decide)⟩,
    by decide, byteLength_bounds.2.1 [0x61, 0x62] base64url (by decide)⟩

end Encoding

end Octets
