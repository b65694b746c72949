import Octets.Proofs.Transcoding

/-!
# Which base64 texts are read, and as what

Reading base64 text is specified without the reader. `Stripped` says what is left of a text when
its blanks and its padding are deleted. The text is read if and only if what is left consists of
characters of the alphabet and has not one character more than a multiple of four. The bytes are
given by their bits: they are the first whole bytes of the bits that the characters stand for, six
each, whatever the bits are that fill no byte.

The length of a text is counted in characters or in bytes (`Measure`). The two differ only for
texts that are not read.

* `stripped_iff` — what is left is determined by the text.
* `Alphabet.value?_eq_some_iff` — the value of a character is its place in the alphabet.
* `bits_split` — the bits of a number are those of its quotient by a power of two, and of the
  remainder.
* `bits_ofSextets` — the bytes of six-bit values are the beginning of the bits of the values.
* `ofBase64_forgiving` — which texts are read, and as what.
-/

namespace Octets.Text.Base64

/-! ## The alphabets -/

/-- The characters of an alphabet, in the order of their values. -/
def Alphabet.characters (alphabet : Alphabet) : List Char :=
  "ABCDEFGHIJKLMNOPQRSTUVWXYZabcdefghijklmnopqrstuvwxyz0123456789".toList ++
    match alphabet with
    | .standard => ['+', '/']
    | .urlSafe => ['-', '_']

namespace Alphabet

variable {alphabet : Alphabet} {c : Char} {v : Nat}

theorem characters_eq_map_digit (alphabet : Alphabet) :
    alphabet.characters = (List.range 64).map alphabet.digit := by
  cases alphabet <;> decide

/-- The place of a digit among the characters is its value. -/
theorem idxOf_digit (h : v < 64) : alphabet.characters.idxOf (alphabet.digit v) = v := by
  have every : ∀ v < 64, alphabet.characters.idxOf (alphabet.digit v) = v := by
    cases alphabet <;> decide +kernel
  exact every v h

theorem mem_characters_iff : c ∈ alphabet.characters ↔ ∃ v < 64, alphabet.digit v = c := by
  simp [characters_eq_map_digit]

/-- Only digits have values. -/
theorem digit_of_value? (h : alphabet.value? c = some v) : v < 64 ∧ alphabet.digit v = c := by
  have hchar : ∀ n, n = c.toNat → Char.ofNat n = c := fun n hn => by rw [hn, Char.ofNat_toNat]
  simp only [value?] at h
  -- One case for each row of the table, and in the last row one for each alphabet.
  split at h
  · obtain rfl := Option.some.inj h
    refine ⟨by omega, ?_⟩
    rw [digit.eq_def, if_pos (by omega), hchar _ (by omega)]
  split at h
  · obtain rfl := Option.some.inj h
    refine ⟨by omega, ?_⟩
    rw [digit.eq_def, if_neg (by omega), if_pos (by omega), hchar _ (by omega)]
  split at h
  · obtain rfl := Option.some.inj h
    refine ⟨by omega, ?_⟩
    rw [digit.eq_def, if_neg (by omega), if_neg (by omega), if_pos (by omega), hchar _ (by omega)]
  cases alphabet with
  | standard =>
    by_cases hplus : c = '+'
    · obtain rfl : 62 = v := by simpa [hplus] using h
      exact ⟨by decide, hplus.symm⟩
    · obtain ⟨hslash, rfl⟩ : c = '/' ∧ 63 = v := by simpa [hplus] using h
      exact ⟨by decide, hslash.symm⟩
  | urlSafe =>
    by_cases hminus : c = '-'
    · obtain rfl : 62 = v := by simpa [hminus] using h
      exact ⟨by decide, hminus.symm⟩
    · obtain ⟨hline, rfl⟩ : c = '_' ∧ 63 = v := by simpa [hminus] using h
      exact ⟨by decide, hline.symm⟩

/-- The characters of the alphabet have values, each its place, and no others have. -/
theorem value?_eq_some_iff :
    alphabet.value? c = some v ↔ c ∈ alphabet.characters ∧ v = alphabet.characters.idxOf c := by
  constructor
  · intro h
    obtain ⟨hv, rfl⟩ := digit_of_value? h
    exact ⟨mem_characters_iff.mpr ⟨v, hv, rfl⟩, (idxOf_digit hv).symm⟩
  · rintro ⟨hc, rfl⟩
    obtain ⟨v, hv, rfl⟩ := mem_characters_iff.mp hc
    rw [idxOf_digit hv, value?_digit alphabet hv]

/-- The characters of the alphabet are below `0x80`, and the padding is none of them. -/
theorem lt_of_mem_characters (h : c ∈ alphabet.characters) : c.toNat < 0x80 := by
  obtain ⟨v, hv, rfl⟩ := mem_characters_iff.mp h
  have every : ∀ v < 64, (alphabet.digit v).toNat < 0x80 := by
    cases alphabet <;> decide
  exact every v hv

end Alphabet

/-- A text of characters of the alphabet has values, and no other has. -/
theorem mapM_value?_eq_some_iff {alphabet : Alphabet} {text : List Char} {values : List Nat} :
    text.mapM alphabet.value? = some values ↔
      (∀ c ∈ text, c ∈ alphabet.characters) ∧ values = text.map alphabet.characters.idxOf := by
  induction text generalizing values with
  | nil => simp [eq_comm]
  | cons c rest ih =>
    rw [List.mapM_cons, List.forall_mem_cons, List.map_cons]
    constructor
    · intro h
      obtain ⟨v, hv, h⟩ := Option.bind_eq_some_iff.mp h
      obtain ⟨tail, htail, h⟩ := Option.bind_eq_some_iff.mp h
      obtain ⟨hc, rfl⟩ := Alphabet.value?_eq_some_iff.mp hv
      obtain ⟨hrest, rfl⟩ := ih.mp htail
      cases h
      exact ⟨⟨hc, hrest⟩, rfl⟩
    · rintro ⟨⟨hc, hrest⟩, rfl⟩
      rw [Alphabet.value?_eq_some_iff.mpr ⟨hc, rfl⟩, ih.mpr ⟨hrest, rfl⟩]
      rfl

/-! ## Bits -/

/-- The lowest bits of a number, the most significant one first. -/
def bits : Nat → Nat → List Bool
  | 0, _ => []
  | width + 1, value => value.testBit width :: bits width value

@[simp] theorem length_bits (width value : Nat) : (bits width value).length = width := by
  induction width with
  | zero => rfl
  | succ width ih => rw [bits, List.length_cons, ih]

/-- Only the lowest bits of a number count. -/
theorem bits_mod {width n : Nat} (h : width ≤ n) (value : Nat) :
    bits width (value % 2 ^ n) = bits width value := by
  induction width with
  | zero => rfl
  | succ width ih =>
    rw [bits, bits, ih (by omega), Nat.testBit_mod_two_pow, decide_eq_true (by omega),
      Bool.true_and]

/-- The bits of a number are those of its quotient by a power of two, and of the remainder. -/
theorem bits_split (m n value : Nat) :
    bits (m + n) value = bits m (value / 2 ^ n) ++ bits n (value % 2 ^ n) := by
  induction m with
  | zero => rw [Nat.zero_add, bits_mod (Nat.le_refl n)]; rfl
  | succ m ih =>
    rw [Nat.succ_add, bits, bits, ih, List.cons_append, Nat.testBit_div_two_pow, Nat.add_comm m n]

/-- The bits of a quotient and of a remainder are the bits of the number. -/
theorem bits_joined (m n high : Nat) {low : Nat} (h : low < 2 ^ n) :
    bits (m + n) (high * 2 ^ n + low) = bits m high ++ bits n low := by
  have hpos : 0 < 2 ^ n := Nat.two_pow_pos n
  rw [bits_split, Nat.mul_comm, Nat.mul_add_div hpos, Nat.div_eq_of_lt h, Nat.add_zero,
    Nat.mul_add_mod, Nat.mod_eq_of_lt h]

/-- The bits of bytes. -/
def bytesBits (bytes : Bytes) : List Bool := bytes.flatMap fun b => bits 8 b.toNat

theorem bytesBits_cons_ofNat {n : Nat} (h : n < 256) (rest : Bytes) :
    bytesBits (UInt8.ofNat n :: rest) = bits 8 n ++ bytesBits rest := by
  rw [bytesBits, List.flatMap_cons, UInt8.toNat_ofNat_of_lt' h]
  rfl

/-! ### Bytes of six-bit values

A byte ends the bits of one value and begins those of the next. -/

theorem bits_firstByte (p : Nat) {q : Nat} (hq : q < 64) :
    bits 8 (p * 4 + q / 16) = bits 6 p ++ bits 2 (q / 16) :=
  bits_joined 6 2 p (show q / 16 < 4 by omega)

theorem bits_secondByte (q : Nat) {r : Nat} (hr : r < 64) :
    bits 8 (q % 16 * 16 + r / 4) = bits 4 (q % 16) ++ bits 4 (r / 4) :=
  bits_joined 4 4 (q % 16) (show r / 4 < 16 by omega)

theorem bits_thirdByte (r : Nat) {s : Nat} (hs : s < 64) :
    bits 8 (r % 4 * 64 + s) = bits 2 (r % 4) ++ bits 6 s :=
  bits_joined 2 6 (r % 4) hs

theorem bits_second (q : Nat) : bits 6 q = bits 2 (q / 16) ++ bits 4 (q % 16) := bits_split 2 4 q

theorem bits_third (r : Nat) : bits 6 r = bits 4 (r / 4) ++ bits 2 (r % 4) := bits_split 4 2 r

/-- The bytes of six-bit values are as many as fit into their bits, and are the beginning of
them. -/
theorem bits_ofSextets {values : List Nat} (hsix : ∀ v ∈ values, v < 64)
    (hlen : values.length % 4 ≠ 1) :
    (ofSextets values).length = 3 * values.length / 4 ∧
      bytesBits (ofSextets values) <+: values.flatMap (bits 6) := by
  fun_induction ofSextets values with
  | case1 p q r s rest ih =>
    simp only [List.forall_mem_cons] at hsix
    obtain ⟨hp, hq, hr, hs, hrest⟩ := hsix
    simp only [List.length_cons] at hlen ⊢
    obtain ⟨hcount, left, hleft⟩ := ih hrest (by omega)
    refine ⟨by omega, left, ?_⟩
    rw [bytesBits_cons_ofNat (by omega), bytesBits_cons_ofNat (by omega),
      bytesBits_cons_ofNat (by omega), bits_firstByte p hq, bits_secondByte q hr,
      bits_thirdByte r hs]
    simp only [List.flatMap_cons, ← hleft, bits_second q, bits_third r, List.append_assoc]
  | case2 p q r =>
    simp only [List.forall_mem_cons] at hsix
    obtain ⟨hp, hq, hr, -⟩ := hsix
    -- Two bits of the third value are left.
    refine ⟨by simp, bits 2 (r % 4), ?_⟩
    rw [bytesBits_cons_ofNat (by omega), bytesBits_cons_ofNat (by omega), bits_firstByte p hq,
      bits_secondByte q hr]
    simp only [List.flatMap_cons, bits_second q, bits_third r, List.append_assoc]
    rfl
  | case3 p q =>
    simp only [List.forall_mem_cons] at hsix
    obtain ⟨hp, hq, -⟩ := hsix
    -- Four bits of the second value are left.
    refine ⟨by simp, bits 4 (q % 16), ?_⟩
    rw [bytesBits_cons_ofNat (by omega), bits_firstByte p hq]
    simp only [List.flatMap_cons, bits_second q, List.append_assoc]
    rfl
  | case4 values hfour hthree htwo =>
    match values with
    | [] => exact ⟨rfl, List.nil_prefix⟩
    | [p] => exact absurd rfl hlen
    | [p, q] => exact absurd rfl (htwo p q)
    | [p, q, r] => exact absurd rfl (hthree p q r)
    | p :: q :: r :: s :: rest => exact absurd rfl (hfour p q r s rest)

/-! ## Blanks and padding -/

/-- How the length of a text is counted. -/
inductive Measure where
  | characters
  | bytes

/-- The length of a text. -/
def Measure.length : Measure → List Char → Nat
  | .characters, text => text.length
  | .bytes, text => Utf8.byteLength text

/-- The characters that are deleted wherever they stand. -/
def blanks : List Char := ['\t', '\n', '\x0c', '\r', ' ']

/-- What is left of a text when its blanks are deleted and then, where the length is a multiple of
four, up to two `=` at the end. -/
inductive Stripped (measure : Measure) (text : List Char) : List Char → Prop where
  | unaligned {core : List Char} (dense : text.filter (· ∉ blanks) = core)
      (length : measure.length core % 4 ≠ 0) : Stripped measure text core
  | aligned {core : List Char} {pads : Nat}
      (dense : text.filter (· ∉ blanks) = core ++ List.replicate pads '=')
      (length : measure.length (core ++ List.replicate pads '=') % 4 = 0)
      (few : pads ≤ 2) (most : pads < 2 → core.getLast? ≠ some '=') : Stripped measure text core

theorem filter_blanks (text : List Char) :
    text.filter (· ∉ blanks) = text.filter (!isBlank ·) := by
  refine List.filter_congr fun c _ => ?_
  simp [isBlank, blanks, Bool.beq_eq_decide_eq, Bool.and_assoc]

/-- A text ends in a padding character that is taken, or in none. -/
theorem dropPad_cases (text : List Char) :
    (text.getLast? ≠ some '=' ∧ dropPad text = text) ∨ text = dropPad text ++ ['='] := by
  unfold dropPad
  by_cases h : text.getLast? = some '='
  · rw [if_pos h]
    obtain ⟨rest, rfl⟩ := List.getLast?_eq_some_iff.mp h
    exact .inr (by rw [List.dropLast_concat])
  · rw [if_neg h]
    exact .inl ⟨h, rfl⟩

theorem dropPad_of_getLast?_ne {text : List Char} (h : text.getLast? ≠ some '=') :
    dropPad text = text := if_neg h

/-- Taking padding twice takes up to two characters, and as many as there are. -/
theorem dropPad_dropPad_iff {text core : List Char} :
    core = dropPad (dropPad text) ↔
      ∃ pads ≤ 2, text = core ++ List.replicate pads '=' ∧
        (pads < 2 → core.getLast? ≠ some '=') := by
  constructor
  · rintro rfl
    rcases dropPad_cases text with ⟨hlast, heq⟩ | htext
    · refine ⟨0, by omega, ?_, fun _ => ?_⟩
      · rw [heq, heq, List.replicate_zero, List.append_nil]
      · rwa [heq, heq]
    · rcases dropPad_cases (dropPad text) with ⟨hlast, heq⟩ | hrest
      · refine ⟨1, by omega, ?_, fun _ => by rwa [heq]⟩
        rw [heq]
        exact htext
      · refine ⟨2, by omega, ?_, fun h => absurd h (by omega)⟩
        rw [List.replicate_succ', ← List.append_assoc, List.replicate_one, ← hrest]
        exact htext
  · rintro ⟨pads, hle, rfl, hmost⟩
    match pads, hle with
    | 0, _ =>
      have hcore := dropPad_of_getLast?_ne (hmost (by omega))
      rw [List.replicate_zero, List.append_nil, hcore, hcore]
    | 1, _ =>
      rw [List.replicate_one, dropPad_append_pad, dropPad_of_getLast?_ne (hmost (by omega))]
    | 2, _ =>
      rw [List.replicate_succ', ← List.append_assoc, dropPad_append_pad, List.replicate_one,
        dropPad_append_pad]

/-- The text without its blanks and its padding. -/
def remainder (measure : Measure) (text : List Char) : List Char :=
  let dense := text.filter (!isBlank ·)
  if measure.length dense % 4 = 0 then dropPad (dropPad dense) else dense

/-- What is left is determined by the text. -/
theorem stripped_iff {measure : Measure} {text core : List Char} :
    Stripped measure text core ↔ core = remainder measure text := by
  unfold remainder
  rw [← filter_blanks]
  constructor
  · rintro (⟨rfl, hlength⟩ | ⟨hdense, hlength, hfew, hmost⟩)
    · exact (if_neg hlength).symm
    · dsimp only
      rw [hdense, if_pos hlength]
      exact dropPad_dropPad_iff.mpr ⟨_, hfew, rfl, hmost⟩
  · dsimp only
    split
    · rename_i hlength
      intro hcore
      obtain ⟨pads, hfew, hdense, hmost⟩ := dropPad_dropPad_iff.mp hcore
      rw [hdense] at hlength
      exact .aligned hdense hlength hfew hmost
    · rename_i hlength
      rintro rfl
      exact .unaligned rfl hlength

/-- Every character that is not blank is left or is padding. -/
theorem Stripped.eq_pad_of_not_mem {measure : Measure} {text core : List Char} {c : Char}
    (h : Stripped measure text core) (hc : c ∈ text.filter (!isBlank ·)) (hcore : c ∉ core) :
    c = '=' := by
  rw [← filter_blanks] at hc
  cases h with
  | unaligned hdense =>
    rw [hdense] at hc
    exact absurd hc hcore
  | aligned hdense =>
    rw [hdense] at hc
    exact List.eq_of_mem_replicate ((List.mem_append.mp hc).resolve_left hcore)

/-- A text of one-byte characters has as many bytes as characters. -/
theorem Measure.length_eq {text : List Char} (h : ∀ c ∈ text, c.toNat < 0x80) (measure : Measure) :
    measure.length text = text.length := by
  have hbytes : Utf8.byteLength text = text.length := by
    induction text with
    | nil => rfl
    | cons c rest ih =>
      rw [List.forall_mem_cons] at h
      have hwidth : Utf8.width c = 1 := if_pos h.1
      have hsum : Utf8.byteLength (c :: rest) = Utf8.width c + Utf8.byteLength rest := rfl
      rw [hsum, hwidth, ih h.2, List.length_cons, Nat.add_comm]
  cases measure with
  | characters => rfl
  | bytes => exact hbytes

/-- Where what is left is in the alphabet, it does not matter how lengths are counted: the
characters of the alphabet and the padding have one byte each. -/
theorem remainder_eq {alphabet : Alphabet} {measure : Measure} {text : List Char}
    (h : ∀ c ∈ remainder measure text, c ∈ alphabet.characters) (other : Measure) :
    remainder other text = remainder measure text := by
  have hdense : ∀ c ∈ text.filter (!isBlank ·), c.toNat < 0x80 := by
    intro c hc
    by_cases hcore : c ∈ remainder measure text
    · exact Alphabet.lt_of_mem_characters (h c hcore)
    · rw [(stripped_iff.mpr rfl).eq_pad_of_not_mem hc hcore]
      decide
  simp only [remainder, Measure.length_eq hdense]

/-! ## Reading -/

/-- What is left of a text is in the alphabet and is not one character too long. -/
def Alphabet.Spelled (alphabet : Alphabet) (measure : Measure) (core : List Char) : Prop :=
  (∀ c ∈ core, c ∈ alphabet.characters) ∧ measure.length core % 4 ≠ 1

/-- Where this holds for one way to count lengths, it holds for the other, of the same text. -/
theorem Alphabet.Spelled.recount {alphabet : Alphabet} {measure : Measure} {text : List Char}
    (h : alphabet.Spelled measure (remainder measure text)) (other : Measure) :
    remainder other text = remainder measure text ∧
      other.length (remainder measure text) = measure.length (remainder measure text) ∧
      alphabet.Spelled other (remainder other text) := by
  obtain ⟨hmem, hlength⟩ := h
  have hascii : ∀ c ∈ remainder measure text, c.toNat < 0x80 :=
    fun c hc => Alphabet.lt_of_mem_characters (hmem c hc)
  have hcount :
      other.length (remainder measure text) = measure.length (remainder measure text) := by
    rw [Measure.length_eq hascii, Measure.length_eq hascii]
  have hcore := remainder_eq hmem other
  refine ⟨hcore, hcount, ?_⟩
  rw [hcore]
  exact ⟨hmem, by rwa [hcount]⟩

/-- What a text is read as: the bytes of the values of what is left. -/
theorem decode?_eq_some_iff {alphabet : Alphabet} {text : List Char} {bytes : Bytes} :
    decode? alphabet text = some bytes ↔
      alphabet.Spelled .characters (payload text) ∧
        bytes = ofSextets ((payload text).map alphabet.characters.idxOf) := by
  unfold decode? Alphabet.Spelled Measure.length
  by_cases hlen : (payload text).length % 4 = 1
  · simp [hlen]
  · rw [if_neg hlen, Option.map_eq_some_iff]
    constructor
    · rintro ⟨values, hvalues, rfl⟩
      obtain ⟨hmem, rfl⟩ := mapM_value?_eq_some_iff.mp hvalues
      exact ⟨⟨hmem, hlen⟩, rfl⟩
    · rintro ⟨⟨hmem, -⟩, rfl⟩
      exact ⟨_, mapM_value?_eq_some_iff.mpr ⟨hmem, rfl⟩, rfl⟩

theorem ofBase64_eq_ok_iff {alphabet : Alphabet} {text : List Char} {bytes : Bytes} :
    Encoding.ofBase64 alphabet text = .ok bytes ↔ decode? alphabet text = some bytes := by
  unfold Encoding.ofBase64
  cases decode? alphabet text <;> simp

/-- The values of characters of the alphabet have six bits. -/
theorem idxOf_lt {alphabet : Alphabet} {core : List Char}
    (h : ∀ c ∈ core, c ∈ alphabet.characters) :
    ∀ v ∈ core.map alphabet.characters.idxOf, v < 64 := by
  intro v hv
  obtain ⟨c, hc, rfl⟩ := List.mem_map.mp hv
  obtain ⟨place, hplace, rfl⟩ := Alphabet.mem_characters_iff.mp (h c hc)
  rwa [Alphabet.idxOf_digit hplace]

/-- A text is read if and only if what is left of it without blanks and padding is in the alphabet
and has not one character more than a multiple of four. It is then read as the whole bytes at the
beginning of the bits that its characters stand for. -/
theorem ofBase64_forgiving (alphabet : Alphabet) (measure : Measure) (s : String) :
    ∃ core, (∀ other, Stripped measure s.toList other ↔ other = core) ∧
      ((∃ bytes, Encoding.ofBase64 alphabet s.toList = .ok bytes) ↔
        (∀ c ∈ core, c ∈ alphabet.characters) ∧ measure.length core % 4 ≠ 1) ∧
      ∀ bytes, Encoding.ofBase64 alphabet s.toList = .ok bytes →
        bytes.length = 3 * measure.length core / 4 ∧
          bytesBits bytes <+: core.flatMap fun c => bits 6 (alphabet.characters.idxOf c) := by
  simp only [ofBase64_eq_ok_iff, decode?_eq_some_iff]
  refine ⟨remainder measure s.toList, fun _ => stripped_iff, ⟨?_, fun h => ?_⟩, ?_⟩
  · rintro ⟨_, h, rfl⟩
    exact (h.recount measure).2.2
  · exact ⟨_, (Alphabet.Spelled.recount h .characters).2.2, rfl⟩
  · rintro _ ⟨h, rfl⟩
    obtain ⟨hcore, hcount, -⟩ := h.recount measure
    obtain ⟨hmem, hlength⟩ := h
    have hbits := bits_ofSextets (idxOf_lt hmem) (by rwa [List.length_map])
    rw [List.length_map, List.flatMap_map] at hbits
    rw [hcore, hcount]
    exact hbits

/-- Two characters and their padding among blanks; the last four bits fill no byte and are not
zero. -/
theorem ofBase64_forgiving_leftover :
    Encoding.ofBase64 .standard "Y\n R=\t=".toList = .ok [0x61] ∧
      bytesBits [0x61] <+: bits 6 24 ++ bits 6 17 := by
  have hread : Encoding.ofBase64 .standard "Y\n R=\t=".toList = .ok [0x61] := rfl
  have hstripped : Stripped .bytes "Y\n R=\t=".toList ['Y', 'R'] :=
    @Stripped.aligned .bytes _ ['Y', 'R'] 2 (by decide) (by decide) (Nat.le_refl 2) (by decide)
  obtain ⟨core, hcore, -, hbits⟩ := ofBase64_forgiving .standard .bytes "Y\n R=\t="
  obtain rfl := (hcore _).mp hstripped
  exact ⟨hread, (hbits _ hread).2⟩

end Octets.Text.Base64
