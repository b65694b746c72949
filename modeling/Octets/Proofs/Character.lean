import Octets.Proofs.Surrogate
import Octets.Proofs.Writing

/-!
# Whole characters of a text

What is written of a text that does not fit is a beginning of its bytes. In utf8 it is always the
encoding of whole characters. In utf16le it ends between two units, and these may be the two
surrogates of one character, of which only the first is then written, although a character that
does not fit is not to be written at all. That this is the only way in which characters are cut is
said by the room alone (`Text.Utf16.Splits`).

* `Text.Utf16.exists_take_encode_iff` — which numbers of units are those of whole characters;
* `Window.writeText_characters` — what a write leaves in its window.
-/

namespace Octets

namespace Text.Utf16

variable {first text : List Char} {m : Nat}

/-! ## Units of whole characters -/

/-- The first `m` units of a text end between the two units of a character. -/
def Splits (text : List Char) (m : Nat) : Prop :=
  ∃ first c rest u v, text = first ++ c :: rest ∧ charUnits c = [u, v] ∧ m = unitLength first + 1

theorem encode_append (a b : List Char) : encode (a ++ b) = encode a ++ encode b := by
  simp [encode, units, List.flatMap_append]

theorem unitLength_append (a b : List Char) :
    unitLength (a ++ b) = unitLength a + unitLength b := by
  simp [unitLength, units, List.flatMap_append]

theorem unitLength_cons (c : Char) (text : List Char) :
    unitLength (c :: text) = (charUnits c).length + unitLength text := by
  rw [unitLength, units_cons, List.length_append]
  rfl

theorem unitLength_le_of_isPrefix (h : first <+: text) : unitLength first ≤ unitLength text := by
  obtain ⟨rest, rfl⟩ := h
  rw [unitLength_append]
  exact Nat.le_add_right _ _

/-- The first units of a text are those of whole characters, or end inside a character. -/
theorem exists_unitLength_or_splits (h : m ≤ unitLength text) :
    (∃ first, first <+: text ∧ unitLength first = m) ∨ Splits text m := by
  induction text generalizing m with
  | nil => exact .inl ⟨[], List.nil_prefix, (Nat.le_zero.mp h).symm⟩
  | cons c rest ih =>
    rw [unitLength_cons] at h
    by_cases hin : m < (charUnits c).length
    · -- Only the place in front of the first unit and the one behind it are inside.
      rcases charUnits_cases c with ⟨u, hunits⟩ | ⟨u, v, hunits⟩
      all_goals
        rw [hunits] at hin
        simp only [List.length_cons, List.length_nil] at hin
      · exact .inl ⟨[], List.nil_prefix, by simp [unitLength, units]; omega⟩
      · obtain rfl | rfl : m = 0 ∨ m = 1 := by omega
        · exact .inl ⟨[], List.nil_prefix, rfl⟩
        · exact .inr ⟨[], c, rest, u, v, rfl, hunits, rfl⟩
    · rcases @ih (m - (charUnits c).length) (by omega) with hwhole | hsplit
      · obtain ⟨first, hfirst, hm⟩ := hwhole
        refine .inl ⟨c :: first, List.cons_prefix_cons.mpr ⟨rfl, hfirst⟩, ?_⟩
        rw [unitLength_cons]
        omega
      · obtain ⟨first, d, last, u, v, rfl, hunits, hm⟩ := hsplit
        refine .inr ⟨c :: first, d, last, u, v, rfl, hunits, ?_⟩
        rw [unitLength_cons]
        omega

/-- Whole characters do not end inside a character. -/
theorem not_splits_of_isPrefix (h : first <+: text) : ¬Splits text (unitLength first) := by
  intro hsplits
  obtain ⟨before, c, rest, u, v, rfl, hunits, hm⟩ := hsplits
  have hthrough : unitLength (before ++ [c]) = unitLength before + 2 := by
    rw [unitLength_append, unitLength_cons, hunits]
    rfl
  have hafter : before ++ [c] <+: before ++ c :: rest := ⟨rest, by simp⟩
  rcases List.prefix_or_prefix_of_prefix h hafter with hshort | hlong
  · rcases List.prefix_concat_iff.mp hshort with rfl | hbefore
    · omega
    · have hle := unitLength_le_of_isPrefix hbefore
      omega
  · have hle := unitLength_le_of_isPrefix hlong
    omega

theorem take_encode_append (first rest : List Char) :
    (encode (first ++ rest)).take (2 * unitLength first) = encode first := by
  rw [encode_append, ← length_encode, List.take_left]

/-- The first units of a text are the encoding of a beginning of it just where they do not end
inside a character. -/
theorem exists_take_encode_iff (h : m ≤ unitLength text) :
    (∃ first, first <+: text ∧ (encode text).take (2 * m) = encode first) ↔ ¬Splits text m := by
  constructor
  · intro hwhole
    obtain ⟨first, hfirst, htake⟩ := hwhole
    have hlength := congrArg List.length htake
    rw [List.length_take, length_encode, length_encode] at hlength
    obtain rfl : m = unitLength first := by omega
    exact not_splits_of_isPrefix hfirst
  · intro hends
    obtain ⟨first, hfirst, rfl⟩ := (exists_unitLength_or_splits h).resolve_right hends
    obtain ⟨rest, rfl⟩ := hfirst
    exact ⟨first, ⟨rest, rfl⟩, take_encode_append first rest⟩

/-- Where the first units end inside a character, the last one is the first half of it. -/
theorem Splits.take_encode (h : Splits text m) :
    ∃ first c rest u v, text = first ++ c :: rest ∧ charUnits c = [u, v] ∧
      (encode text).take (2 * m) = encode first ++ unitBytes u := by
  obtain ⟨first, c, rest, u, v, rfl, hunits, rfl⟩ := h
  refine ⟨first, c, rest, u, v, rfl, hunits, ?_⟩
  have hlast : encode (c :: rest) = unitBytes u ++ (unitBytes v ++ encode rest) := by
    simp [encode, units_cons, hunits]
  rw [encode_append, hlast, Nat.mul_add, ← length_encode, List.take_length_add_append]
  rfl

theorem Splits.lt_unitLength (h : Splits text m) : m < unitLength text := by
  obtain ⟨first, c, rest, u, v, rfl, hunits, rfl⟩ := h
  rw [unitLength_append, unitLength_cons, hunits]
  simp only [List.length_cons, List.length_nil]
  omega

end Text.Utf16

/-! ## What is written -/

namespace Encoding

open Text

variable {text : String} {bytes : Bytes} {room n : Nat}

/-- In utf8 whole characters are written. -/
theorem utf8_take_whole (hencode : Encoding.utf8.encode text = .ok bytes)
    (hn : IsGreatest {m | m ≤ min room bytes.length ∧ Encoding.utf8.EndsWhole text m} n) :
    ∃ first, first <+: text.toList ∧ bytes.take n = Utf8.encode first := by
  obtain ⟨-, first, hfirst, rfl⟩ := hn.1
  obtain rfl : Utf8.encode text.toList = bytes := Except.ok.inj hencode
  refine ⟨first, hfirst, ?_⟩
  obtain ⟨rest, hrest⟩ := hfirst
  rw [← hrest, Utf8.encode_append, List.take_left]

/-- In utf16le as many units are written as there is room for and the text has. -/
theorem utf16le_written_eq (hencode : Encoding.utf16le.encode text = .ok bytes)
    (hn : IsGreatest {m | m ≤ min room bytes.length ∧ Encoding.utf16le.EndsWhole text m} n) :
    bytes = Utf16.encode text.toList ∧
      n = 2 * min (room / 2) (Utf16.unitLength text.toList) := by
  obtain rfl : Utf16.encode text.toList = bytes := Except.ok.inj hencode
  have hwritten := hn.unique (isGreatest_written (by decide) text _ room)
  rw [written, if_pos rfl, Utf16.length_encode] at hwritten
  exact ⟨rfl, by omega⟩

/-- In utf16le whole characters are written, unless the room ends inside one. -/
theorem utf16le_take_whole_iff (hencode : Encoding.utf16le.encode text = .ok bytes)
    (hn : IsGreatest {m | m ≤ min room bytes.length ∧ Encoding.utf16le.EndsWhole text m} n) :
    (∃ first, first <+: text.toList ∧ bytes.take n = Utf16.encode first) ↔
      ¬Utf16.Splits text.toList (room / 2) := by
  obtain ⟨rfl, rfl⟩ := utf16le_written_eq hencode hn
  rw [Utf16.exists_take_encode_iff (Nat.min_le_right _ _)]
  by_cases hroom : room / 2 < Utf16.unitLength text.toList
  · rw [Nat.min_eq_left (Nat.le_of_lt hroom)]
  · -- All units fit, and the text does not end inside a character.
    rw [Nat.min_eq_right (Nat.le_of_not_lt hroom)]
    exact iff_of_true (fun h => Nat.lt_irrefl _ h.lt_unitLength) fun h => hroom h.lt_unitLength

/-- Where the room ends inside a character, the first half of the character is written. -/
theorem utf16le_take_splits (hencode : Encoding.utf16le.encode text = .ok bytes)
    (hn : IsGreatest {m | m ≤ min room bytes.length ∧ Encoding.utf16le.EndsWhole text m} n)
    (hsplits : Utf16.Splits text.toList (room / 2)) :
    ∃ first c rest u v, text.toList = first ++ c :: rest ∧ Utf16.charUnits c = [u, v] ∧
      bytes.take n = Utf16.encode first ++ Utf16.unitBytes u := by
  obtain ⟨rfl, rfl⟩ := utf16le_written_eq hencode hn
  rw [Nat.min_eq_left (Nat.le_of_lt hsplits.lt_unitLength)]
  exact hsplits.take_encode

end Encoding

namespace Window

open Text

variable {s t : Store} {w : Window} {text : String} {offset length encoding : Value Window}
  {n : Nat}

/-- The bytes that a successful write has put at the place of the text are the encoding of whole
characters from the beginning of the text, in utf8 always, and in utf16le if and only if the room
does not end between the two units of a character. Where it does, the first of the two is written
behind the whole characters. -/
theorem writeText_characters (hw : s.Holds w) (hlength : w.length ≤ maxLength)
    (ho : ∀ v ∈ offset.buffers, s.Holds v) (hl : ∀ v ∈ length.buffers, s.Holds v)
    (he : ∀ v ∈ encoding.buffers, s.Holds v)
    (hrun : (w.writeText text offset length encoding).run s = .ok n t) :
    ∃ start count name e,
      Content.Placed w.length (encoding.map s.read) (offset.map s.read) (length.map s.read)
        start count name ∧
      Content.writtenEncoding name = .ok e ∧
      (e = .utf8 → ∃ first, first <+: text.toList ∧
        (t.read w).range start (start + n) = Utf8.encode first) ∧
      (e = .utf16le →
        ((∃ first, first <+: text.toList ∧
          (t.read w).range start (start + n) = Utf16.encode first) ↔
            ¬Utf16.Splits text.toList (count / 2)) ∧
        (Utf16.Splits text.toList (count / 2) →
          ∃ first c rest u v, text.toList = first ++ c :: rest ∧ Utf16.charUnits c = [u, v] ∧
            (t.read w).range start (start + n) = Utf16.encode first ++ Utf16.unitBytes u)) := by
  have hread := Store.length_read hw
  rw [run_writeText text hw ho hl he, Store.settle_eq_ok_iff] at hrun
  obtain ⟨new, hnew, rfl⟩ := hrun
  obtain ⟨start, count, name, e, bytes, hplaced, hname, hencode, hn, rfl⟩ :=
    (Content.writeText_eq_ok_iff (hread.trans_le hlength)).mp hnew
  obtain ⟨hbytes, hroom⟩ := hplaced.le_of_isGreatest hn
  have hlen : (bytes.take n).length = n := List.length_take_of_le hbytes
  have hwritten : ((s.write w ((s.read w).overwrite start (bytes.take n))).read w).range start
      (start + n) = bytes.take n := by
    have hrange := @Bytes.range_overwrite (s.read w) (bytes.take n) start 0 n hlen.ge (by omega)
    rw [Store.read_write_self hw (by rw [Bytes.length_overwrite (by omega), hread])]
    rw [Nat.add_zero] at hrange
    rw [hrange, Bytes.range, List.drop_zero, Nat.sub_zero, List.take_take, Nat.min_self]
  refine ⟨start, count, name, e, hread ▸ hplaced, hname, ?_, ?_⟩
  · rintro rfl
    rw [hwritten]
    exact Encoding.utf8_take_whole hencode hn
  · rintro rfl
    rw [hwritten]
    exact ⟨Encoding.utf16le_take_whole_iff hencode hn, Encoding.utf16le_take_splits hencode hn⟩

/-- There is room for the first character and half of the second one. -/
theorem writeText_characters_half :
    let s : Store := ⟨[[0, 0, 0, 0, 0, 0, 0]]⟩
    let t : Store := ⟨[[0, 0x61, 0, 0x3D, 0xD8, 0, 0]]⟩
    let w : Window := ⟨0, 1, 5⟩
    (w.writeText "a😀" (.text "utf16le") .undefined .undefined).run s = .ok 4 t ∧
      Utf16.Splits "a😀".toList 2 ∧
      ∃ first u, (t.read w).range 0 4 = Utf16.encode first ++ Utf16.unitBytes u := by
  intro s t w
  have hw : s.Holds w := by decide
  have hnone : ∀ v ∈ ([] : List Window), s.Holds v := by simp
  have hwrite : Content.writeText [0, 0, 0, 0, 0] "a😀" (.text "utf16le") .undefined .undefined =
      .ok ([0x61, 0, 0x3D, 0xD8, 0], 4) := rfl
  have hrun : (w.writeText "a😀" (.text "utf16le") .undefined .undefined).run s = .ok 4 t := by
    refine (@run_writeText s w (.text "utf16le") .undefined .undefined "a😀" hw hnone hnone
      hnone).trans ?_
    exact Store.settle_eq_ok_iff.mpr ⟨_, hwrite, rfl⟩
  have hroom : w.length / 2 = 2 := by decide
  have hsplits : Utf16.Splits "a😀".toList 2 := ⟨['a'], '😀', [], 0xD83D, 0xDE00, rfl, rfl, rfl⟩
  obtain ⟨start, count, name, e, hplaced, hname, -, hutf16⟩ :=
    @writeText_characters s t w "a😀" (.text "utf16le") .undefined .undefined 4 hw (by decide) hnone
      hnone hnone hrun
  cases hplaced with
  | named =>
    obtain rfl : Encoding.utf16le = e := Except.ok.inj hname
    obtain ⟨first, -, -, u, -, -, -, hbytes⟩ := (hutf16 rfl).2 (by rwa [hroom])
    exact ⟨hrun, hsplits, first, u, hbytes⟩

/-- In a window of two bytes, two are written of a character that needs four. -/
theorem writeText_half_character :
    let s : Store := ⟨[[0, 0]]⟩
    let t : Store := ⟨[[0x3D, 0xD8]]⟩
    let w : Window := ⟨0, 0, 2⟩
    (w.writeText "😀" (.text "utf16le") .undefined .undefined).run s = .ok 2 t ∧
      ¬∃ first, first <+: "😀".toList ∧ (t.read w).range 0 2 = Utf16.encode first := by
  intro s t w
  have hw : s.Holds w := by decide
  have hnone : ∀ v ∈ ([] : List Window), s.Holds v := by simp
  have hwrite : Content.writeText [0, 0] "😀" (.text "utf16le") .undefined .undefined =
      .ok ([0x3D, 0xD8], 2) := rfl
  have hsplits : Utf16.Splits "😀".toList 1 := ⟨[], '😀', [], 0xD83D, 0xDE00, rfl, rfl, rfl⟩
  constructor
  · refine (@run_writeText s w (.text "utf16le") .undefined .undefined "😀" hw hnone hnone
      hnone).trans ?_
    exact Store.settle_eq_ok_iff.mpr ⟨_, hwrite, rfl⟩
  · exact fun hwhole => (Utf16.exists_take_encode_iff (by decide)).mp hwhole hsplits

end Window

end Octets
