import Octets.Encoding
import Octets.Proofs.Cutting

/-!
# Damage does not spread

Well-formed text keeps its place among damaged bytes: what stands before it and behind it is read
as if the text were not there. What carries this is that an unfinished character is due a byte that
continues it (`Pending.Sound`), so that the first byte of a character always begins afresh.

Bytes without damage are those of a text. What a byte can begin is said once (`Begins`); followed
through to the last byte, it gives the character that the bytes encode.

* `piecesFrom_append` — before a byte that continues no character, reading can be cut.
* `exists_encodeChar` — bytes without a damaged part begin with the bytes of a character.
* `isValid_iff` — bytes without a damaged part are the encoded form of a text.
* `Encoding.utf8_lossless` — both, for texts and their encoded forms.
-/

namespace Octets

namespace Text.Utf8

/-! ## First bytes -/

/-- What a byte gives where no character is unfinished: a whole character, a damaged part, or the
beginning of a character of two, three or four bytes. -/
inductive Begins : UInt8 → List (Option Char) × Option Pending → Prop where
  | whole {n : Nat} (h : n < 0x80) : Begins (UInt8.ofNat n) ([some (Char.ofNat n)], none)
  | damaged (b : UInt8) : Begins b ([none], none)
  | two {n : Nat} (hlow : 2 ≤ n) (hhigh : n < 0x20) :
    Begins (UInt8.ofNat (0xC0 + n)) ([], some ⟨n, 0, 0x80, 0xBF⟩)
  | three {n : Nat} (h : n < 0x10) :
    Begins (UInt8.ofNat (0xE0 + n))
      ([], some ⟨n, 1, if n = 0 then 0xA0 else 0x80, if n = 0xD then 0x9F else 0xBF⟩)
  | four {n : Nat} (h : n ≤ 4) :
    Begins (UInt8.ofNat (0xF0 + n))
      ([], some ⟨n, 2, if n = 0 then 0x90 else 0x80, if n = 4 then 0x8F else 0xBF⟩)

/-- The bytes between the one-byte characters and the first bytes of others begin nothing, and
those above the first bytes of all characters neither. -/
theorem first_of_damaged {b : UInt8}
    (h : (0x80 ≤ b.toNat ∧ b.toNat < 0xC2) ∨ 0xF4 < b.toNat) : first b = ([none], none) := by
  simp only [first, UInt8.lt_iff_toNat_lt, ← UInt8.toNat_inj, UInt8.reduceToNat]
  split_ifs <;> first | rfl | omega

theorem first_begins (b : UInt8) : Begins b (first b) := by
  have hb := b.toNat_lt
  -- One case for each row of the table of first bytes.
  obtain ⟨n, hn, rfl⟩ : ∃ n < 256, b = UInt8.ofNat n := ⟨b.toNat, hb, UInt8.ofNat_toNat.symm⟩
  have hnat : (UInt8.ofNat n).toNat = n := UInt8.toNat_ofNat_of_lt' hn
  by_cases h1 : n < 0x80
  · rw [first_of_one h1]
    exact .whole h1
  by_cases h2 : n < 0xC2
  · rw [first_of_damaged (.inl (by omega))]
    exact .damaged _
  by_cases h3 : n < 0xE0
  · obtain ⟨k, rfl⟩ : ∃ k, n = 0xC0 + k := ⟨n - 0xC0, by omega⟩
    rw [first_of_two (by omega) (by omega)]
    exact .two (by omega) (by omega)
  by_cases h4 : n < 0xF0
  · obtain ⟨k, rfl⟩ : ∃ k, n = 0xE0 + k := ⟨n - 0xE0, by omega⟩
    rw [first_of_three (by omega)]
    exact .three (by omega)
  by_cases h5 : n ≤ 0xF4
  · obtain ⟨k, rfl⟩ : ∃ k, n = 0xF0 + k := ⟨n - 0xF0, by omega⟩
    rw [first_of_four (by omega)]
    exact .four (by omega)
  · rw [first_of_damaged (.inr (by omega))]
    exact .damaged _

/-! ## Damage before a text -/

/-- The byte that is due next continues a character. -/
def Pending.Sound (p : Pending) : Prop := 0x80 ≤ p.low ∧ p.high ≤ 0xBF

/-- Any byte that continues a character is due. -/
theorem sound_any (code later : Nat) : Pending.Sound ⟨code, later, 0x80, 0xBF⟩ :=
  ⟨UInt8.le_refl _, UInt8.le_refl _⟩

/-- What a first byte leaves unfinished. -/
theorem first_sound {b : UInt8} {p : Pending} (h : (first b).2 = some p) : p.Sound := by
  have hbegins := first_begins b
  generalize first b = result at hbegins h
  cases hbegins with
  | whole => cases h
  | damaged => cases h
  | two =>
    obtain rfl := Option.some.inj h
    exact sound_any _ _
  | three =>
    obtain rfl := Option.some.inj h
    dsimp only [Pending.Sound]
    constructor <;> split <;> decide
  | four =>
    obtain rfl := Option.some.inj h
    dsimp only [Pending.Sound]
    constructor <;> split <;> decide

/-- What any byte leaves unfinished. -/
theorem step_sound {state : Option Pending} {b : UInt8} {p : Pending}
    (h : (step state b).2 = some p) : p.Sound := by
  cases state with
  | none => exact first_sound h
  | some q =>
    simp only [step] at h
    split at h
    · split at h
      · cases h
      · obtain rfl := Option.some.inj h
        exact sound_any _ _
    · exact first_sound h

/-- A byte that continues no character ends an unfinished one, and is read as if none had been
pending. -/
theorem step_of_not_continues {p : Pending} {b : UInt8} (hp : p.Sound) (hb : ¬Continues b) :
    step (some p) b = (none :: (first b).1, (first b).2) := by
  have hout : ¬(p.low ≤ b ∧ b ≤ p.high) := by
    rintro ⟨hlow, hhigh⟩
    have hleast := UInt8.le_trans hp.1 hlow
    have hmost := UInt8.le_trans hhigh hp.2
    exact hb ⟨hleast, UInt8.lt_of_le_of_lt hmost (by decide)⟩
  rw [step.eq_def]
  exact if_neg hout

theorem piecesFrom_cons (state : Option Pending) (b : UInt8) (rest : Bytes) :
    piecesFrom state (b :: rest) = (step state b).1 ++ piecesFrom (step state b).2 rest := by
  cases state <;> rfl

/-- Before a byte that continues no character, reading can be cut: what is unfinished there ends as
it would at the end of all bytes. -/
theorem piecesFrom_append {state : Option Pending} (hstate : ∀ p ∈ state, p.Sound) (bytes : Bytes)
    {b : UInt8} (hb : ¬Continues b) (rest : Bytes) :
    piecesFrom state (bytes ++ b :: rest) =
      piecesFrom state bytes ++ piecesFrom none (b :: rest) := by
  induction bytes generalizing state with
  | nil =>
    cases state with
    | none => rfl
    | some p =>
      rw [List.nil_append, piecesFrom_cons, step_of_not_continues (hstate p rfl) hb]
      rfl
  | cons a bytes ih =>
    rw [List.cons_append, piecesFrom_cons, piecesFrom_cons, ih fun p hp => step_sound hp,
      List.append_assoc]

/-- A text keeps its place between any bytes. -/
theorem decode_around (before after : Bytes) {text : List Char} (h : text ≠ []) :
    decode (before ++ encode text ++ after) = decode before ++ text ++ decode after := by
  obtain ⟨c, rest, rfl⟩ := List.exists_cons_of_ne_nil h
  obtain ⟨b, tail, hc, hb, -⟩ := encodeChar_shape c
  have hfirst : encode (c :: rest) ++ after = b :: (tail ++ encode rest ++ after) := by
    rw [encode_cons, hc]
    rfl
  have hpieces : pieces (before ++ (encode (c :: rest) ++ after)) =
      pieces before ++ pieces (encode (c :: rest) ++ after) := by
    rw [hfirst]
    exact piecesFrom_append (by simp) before hb _
  rw [decode, List.append_assoc, hpieces, pieces_encode_append]
  simp [decode]

/-! ## Bytes without damage -/

/-- A byte that is due is the one for its six bits, and these lie between those of the bounds. -/
theorem Pending.Sound.due {p : Pending} {b : UInt8} (hp : p.Sound) (hb : p.low ≤ b ∧ b ≤ p.high) :
    b = continuation b.toNat ∧
      p.low.toNat % 64 ≤ b.toNat % 64 ∧ b.toNat % 64 ≤ p.high.toNat % 64 := by
  have h80 : (0x80 : UInt8).toNat = 0x80 := rfl
  have hBF : (0xBF : UInt8).toNat = 0xBF := rfl
  obtain ⟨hleast, hmost⟩ := hp
  obtain ⟨hlow, hhigh⟩ := hb
  rw [UInt8.le_iff_toNat_le] at hleast hmost hlow hhigh
  rw [← UInt8.toNat_inj, toNat_continuation]
  omega

theorem eq_continuation {b : UInt8} (hb : 0x80 ≤ b ∧ b ≤ 0xBF) : b = continuation b.toNat :=
  ((sound_any 0 0).due hb).1

theorem continuation_congr {m n : Nat} (h : m % 64 = n % 64) : continuation m = continuation n := by
  rw [continuation, h, continuation]

variable {c : Char} {n x y z : Nat}

/-- The bytes of a character, from the parts of its number. -/
theorem encodeChar_of_two (hlow : 2 ≤ n) (hhigh : n < 0x20) (h : c.toNat = n * 64 + x % 64) :
    encodeChar c = [UInt8.ofNat (0xC0 + n), continuation x] := by
  have hfirst : c.toNat / 64 = n := by omega
  have hlast : continuation c.toNat = continuation x := continuation_congr (by omega)
  simp only [encodeChar]
  rw [if_neg (by omega), if_pos (by omega), hfirst, hlast]

theorem encodeChar_of_three (hhigh : n < 0x10) (hlow : n = 0 → 0x20 ≤ x % 64)
    (h : c.toNat = (n * 64 + x % 64) * 64 + y % 64) :
    encodeChar c = [UInt8.ofNat (0xE0 + n), continuation x, continuation y] := by
  have hfirst : c.toNat / 4096 = n := by omega
  have hsecond : continuation (c.toNat / 64) = continuation x := continuation_congr (by omega)
  have hlast : continuation c.toNat = continuation y := continuation_congr (by omega)
  simp only [encodeChar]
  rw [if_neg (by omega), if_neg (by omega), if_pos (by omega), hfirst, hsecond, hlast]

theorem encodeChar_of_four (hlow : n = 0 → 0x10 ≤ x % 64)
    (h : c.toNat = ((n * 64 + x % 64) * 64 + y % 64) * 64 + z % 64) :
    encodeChar c = [UInt8.ofNat (0xF0 + n), continuation x, continuation y, continuation z] := by
  have hfirst : c.toNat / 262144 = n := by omega
  have hsecond : continuation (c.toNat / 4096) = continuation x := continuation_congr (by omega)
  have hthird : continuation (c.toNat / 64) = continuation y := continuation_congr (by omega)
  have hlast : continuation c.toNat = continuation z := continuation_congr (by omega)
  simp only [encodeChar]
  rw [if_neg (by omega), if_neg (by omega), if_neg (by omega), hfirst, hsecond, hthird, hlast]

/-- Where there is no damaged part, an unfinished character goes on with a byte that it is due. -/
theorem exists_cons_of_isSome {p : Pending} {bytes : Bytes}
    (h : ∀ piece ∈ piecesFrom (some p) bytes, piece.isSome = true) :
    ∃ b rest, bytes = b :: rest ∧ (p.low ≤ b ∧ b ≤ p.high) ∧
      ∀ piece ∈ piecesFrom (step (some p) b).2 rest, piece.isSome = true := by
  cases bytes with
  | nil => exact absurd (h none (by simp [piecesFrom])) (by decide)
  | cons b rest =>
    rw [piecesFrom_cons, List.forall_mem_append] at h
    refine ⟨b, rest, rfl, ?_, h.2⟩
    by_contra hout
    have hdamaged : step (some p) b = (none :: (first b).1, (first b).2) := by
      rw [step.eq_def]
      exact if_neg hout
    rw [hdamaged] at h
    exact absurd (h.1 none List.mem_cons_self) (by decide)

/-- The same where more bytes are due after it. -/
theorem exists_cons_of_later {code later : Nat} {low high : UInt8} {bytes : Bytes}
    (h : ∀ piece ∈ piecesFrom (some ⟨code, later + 1, low, high⟩) bytes, piece.isSome = true) :
    ∃ b rest, bytes = b :: rest ∧ (low ≤ b ∧ b ≤ high) ∧
      ∀ piece ∈ piecesFrom (some ⟨code * 64 + b.toNat % 64, later, 0x80, 0xBF⟩) rest,
        piece.isSome = true := by
  obtain ⟨b, rest, hbytes, hrange, h⟩ := exists_cons_of_isSome h
  have hstep : step (some ⟨code, later + 1, low, high⟩) b =
      ([], some ⟨code * 64 + b.toNat % 64, later, 0x80, 0xBF⟩) := if_pos hrange
  rw [hstep] at h
  exact ⟨b, rest, hbytes, hrange, h⟩

/-- Bytes without a damaged part begin with the bytes of a character. -/
theorem exists_encodeChar {b : UInt8} {rest : Bytes}
    (h : ∀ piece ∈ pieces (b :: rest), piece.isSome = true) :
    ∃ c rest', b :: rest = encodeChar c ++ rest' := by
  have hbegins := first_begins b
  have hsound := @first_sound b
  have hstep : pieces (b :: rest) = (first b).1 ++ piecesFrom (first b).2 rest := rfl
  rw [hstep] at h
  generalize first b = result at hbegins hsound h
  cases hbegins with
  | @whole n hn =>
    have hc : (Char.ofNat n).toNat = n := toNat_ofNat (.inl (by omega))
    refine ⟨Char.ofNat n, rest, ?_⟩
    rw [encodeChar_of_lt (by omega), hc]
    rfl
  | damaged => exact absurd (h none (by simp)) (by decide)
  | @two n hlow hhigh =>
    obtain ⟨x, rest, rfl, hx, -⟩ := exists_cons_of_isSome h
    have hc := @toNat_ofNat (n * 64 + x.toNat % 64) (.inl (by omega))
    refine ⟨Char.ofNat (n * 64 + x.toNat % 64), rest, ?_⟩
    rw [encodeChar_of_two hlow hhigh hc, ← eq_continuation hx]
    rfl
  | @three n hhigh =>
    obtain ⟨x, rest, rfl, hx, h⟩ := exists_cons_of_later h
    obtain ⟨y, rest, rfl, hy, -⟩ := exists_cons_of_isSome h
    obtain ⟨hxbyte, hleast, hmost⟩ := (hsound rfl).due hx
    have hshort : n = 0 → 0x20 ≤ x.toNat % 64 := by
      rintro rfl
      exact hleast
    have hsurrogate : n = 0xD → x.toNat % 64 ≤ 0x1F := by
      rintro rfl
      exact hmost
    have hc := @toNat_ofNat ((n * 64 + x.toNat % 64) * 64 + y.toNat % 64) (by omega)
    refine ⟨Char.ofNat ((n * 64 + x.toNat % 64) * 64 + y.toNat % 64), rest, ?_⟩
    rw [encodeChar_of_three hhigh hshort hc, ← hxbyte, ← eq_continuation hy]
    rfl
  | @four n hhigh =>
    obtain ⟨x, rest, rfl, hx, h⟩ := exists_cons_of_later h
    obtain ⟨y, rest, rfl, hy, h⟩ := exists_cons_of_later h
    obtain ⟨z, rest, rfl, hz, -⟩ := exists_cons_of_isSome h
    obtain ⟨hxbyte, hleast, hmost⟩ := (hsound rfl).due hx
    have hshort : n = 0 → 0x10 ≤ x.toNat % 64 := by
      rintro rfl
      exact hleast
    have hbeyond : n = 4 → x.toNat % 64 ≤ 0xF := by
      rintro rfl
      exact hmost
    have hc := @toNat_ofNat
      (((n * 64 + x.toNat % 64) * 64 + y.toNat % 64) * 64 + z.toNat % 64) (by omega)
    refine ⟨Char.ofNat (((n * 64 + x.toNat % 64) * 64 + y.toNat % 64) * 64 + z.toNat % 64), rest,
      ?_⟩
    rw [encodeChar_of_four hshort hc, ← hxbyte, ← eq_continuation hy,
      ← eq_continuation hz]
    rfl

/-- Bytes without a damaged part are the encoded form of a text. -/
theorem exists_encode {bytes : Bytes} (h : ∀ piece ∈ pieces bytes, piece.isSome = true) :
    ∃ text, encode text = bytes := by
  -- The induction is on the number of bytes: a character takes at least one.
  induction hlen : bytes.length using Nat.strong_induction_on generalizing bytes with
  | _ length ih =>
    cases bytes with
    | nil => exact ⟨[], rfl⟩
    | cons b rest =>
      obtain ⟨c, after, hbytes⟩ := exists_encodeChar h
      have hshorter : after.length < length := by
        have hsum := congrArg List.length hbytes
        have hpos := width_pos c
        rw [List.length_append, length_encodeChar] at hsum
        omega
      rw [hbytes, pieces, piecesFrom_encodeChar, List.forall_mem_cons] at h
      obtain ⟨text, rfl⟩ := ih after.length hshorter h.2 rfl
      exact ⟨c :: text, hbytes.symm⟩

theorem isValid_iff {bytes : Bytes} : isValid bytes = true ↔ ∃ text, encode text = bytes := by
  rw [isValid, List.all_eq_true]
  constructor
  · exact exists_encode
  · rintro ⟨text, rfl⟩
    simp [pieces_encode]

/-- What is read from bytes is encoded by the same bytes if and only if nothing is damaged. -/
theorem encode_decode_iff {bytes : Bytes} :
    encode (decode bytes) = bytes ↔ isValid bytes = true := by
  rw [isValid_iff]
  constructor
  · exact fun h => ⟨_, h⟩
  · rintro ⟨text, rfl⟩
    rw [decode_encode]

end Text.Utf8

namespace Encoding

open Text

/-- The encoded form of a text is read as the text, whatever bytes stand before it and behind it,
and these are read as they are alone. Bytes are the encoded form of what is read from them if and
only if they are the encoded form of a text. -/
theorem utf8_lossless :
    (∀ t : String, t ≠ "" → ∃ bytes, encode .utf8 t = .ok bytes ∧
      ∀ before after : Bytes, decode .utf8 (before ++ bytes ++ after) =
        decode .utf8 before ++ t ++ decode .utf8 after) ∧
    ∀ bytes : Bytes,
      (encode .utf8 (decode .utf8 bytes) = .ok bytes ↔ Utf8.isValid bytes = true) ∧
        (Utf8.isValid bytes = true ↔ ∃ t, encode .utf8 t = .ok bytes) := by
  constructor
  · intro t ht
    have hne : t.toList ≠ [] := by simpa using ht
    refine ⟨_, rfl, fun before after => ?_⟩
    simp only [decode, Utf8.decode_around before after hne, String.ofList_append,
      String.ofList_toList]
  · intro bytes
    simp only [encode, decode, String.toList_ofList, Except.ok.injEq, Utf8.encode_decode_iff,
      true_and, Utf8.isValid_iff]
    constructor
    · rintro ⟨text, htext⟩
      exact ⟨String.ofList text, by rw [String.toList_ofList, htext]⟩
    · rintro ⟨t, ht⟩
      exact ⟨t.toList, ht⟩

/-- Between a character without its last byte and a lone continuing byte, either of which would go
on with the other. -/
theorem utf8_lossless_truncated :
    "é" ≠ "" ∧ decode .utf8 ([0xE2, 0x82] ++ [0xC3, 0xA9] ++ [0xAC]) = "\uFFFDé\uFFFD" := by
  have hne : "é" ≠ "" := by decide
  obtain ⟨bytes, hbytes, hread⟩ := utf8_lossless.1 "é" hne
  obtain rfl : [0xC3, 0xA9] = bytes := Except.ok.inj hbytes
  exact ⟨hne, hread [0xE2, 0x82] [0xAC]⟩

end Encoding

end Octets
