import Octets.Message
import Octets.Proofs.Outcome

/-!
# Messages can be built

No range and no difference on the way to a message fails, and the message is that of
`Fault.message`. A byte sequence is only cut where it is long enough. The digits of a number are
cut three by three; every place in them is a character boundary, because the text of a number is
ascii.
-/

namespace Octets

namespace Text

/-- Every character of the text is one byte of the encoded text. -/
def IsAscii (text : List Char) : Prop := ∀ c ∈ text, c.toNat < 0x80

namespace IsAscii

variable {a b text : List Char} {c : Char}

theorem nil : IsAscii [] := fun _ h => nomatch h

theorem cons (hc : c.toNat < 0x80) (h : IsAscii text) : IsAscii (c :: text) := by
  intro d hd
  rcases List.mem_cons.mp hd with rfl | hd
  · exact hc
  · exact h d hd

theorem append (ha : IsAscii a) (hb : IsAscii b) : IsAscii (a ++ b) := by
  intro c hc
  rcases List.mem_append.mp hc with hc | hc
  · exact ha c hc
  · exact hb c hc

/-- A text with no other characters is ascii as well. -/
theorem mono (h : IsAscii text) (hsub : ∀ c ∈ a, c ∈ text) : IsAscii a := fun c hc =>
  h c (hsub c hc)

theorem replicate (n : Nat) (hc : c.toNat < 0x80) : IsAscii (List.replicate n c) := by
  intro d hd
  rw [List.eq_of_mem_replicate hd]
  exact hc

/-- The bytes of the text begin no character of more than one byte. -/
theorem lt_of_mem_encode (h : IsAscii text) : ∀ x ∈ Utf8.encode text, x < 0x80 := by
  intro x hx
  obtain ⟨c, hc, hx⟩ := List.mem_flatMap.mp hx
  have hlt := h c hc
  rw [Utf8.encodeChar_of_lt hlt, List.mem_singleton] at hx
  have h80 : (0x80 : UInt8).toNat = 0x80 := rfl
  rw [hx, UInt8.lt_iff_toNat_lt, UInt8.toNat_ofNat_of_lt' (show c.toNat < 256 by omega)]
  omega

end IsAscii

/-- Decimal digits are ascii. -/
theorem isAscii_decimal (n : Nat) : IsAscii (decimal n) := by
  intro c hc
  have hdigit := Nat.isDigit_of_mem_toDigits (by decide) (by decide) hc
  exact Nat.lt_of_le_of_lt (toNat_of_isDigit hdigit).2 (by decide)

/-! ## Groups -/

namespace Grouped

variable {α : Type} {mark : α}

theorem marked_eq_self {items : List α} (h : items.length ≤ 3) : marked mark items = items := by
  match items with
  | [] => rfl
  | [_] => rfl
  | [_, _] => rfl
  | [_, _, _] => rfl

/-- The last three elements are a group, if there are others before them. -/
theorem marked_append {before last : List α} (hne : before ≠ []) (hlast : last.length = 3) :
    marked mark (before ++ last) = marked mark before ++ mark :: last := by
  induction before with
  | nil => exact absurd rfl hne
  | cons a rest ih =>
    cases rest with
    | nil =>
      match last, hlast with
      | [_, _, _], _ => simp [marked]
    | cons b rest =>
      have hrest := ih (by simp)
      rw [List.cons_append] at hrest
      have hlength : ((rest ++ last).length + 1) % 3 = (rest.length + 1) % 3 := by
        rw [List.length_append]
        omega
      simp only [List.cons_append, marked, hlength, hrest]
      split <;> rfl

/-- Every place in an ascii text is a boundary. -/
theorem isBoundary_of_lt {bytes : Bytes} (h : ∀ x ∈ bytes, x < 0x80) {i : Nat}
    (hi : i ≤ bytes.length) : Utf8.isBoundary bytes i = true := by
  unfold Utf8.isBoundary
  cases hget : bytes[i]? with
  | none =>
    have hlen := List.getElem?_eq_none_iff.mp hget
    have heq : i = bytes.length := by omega
    simp [heq]
  | some x =>
    have hx := h x (List.mem_of_getElem? hget)
    simp [hx]

theorem piece_eq_ok {bytes : Bytes} (h : ∀ x ∈ bytes, x < 0x80) {start stop : Nat}
    (hle : start ≤ stop) (hlen : stop ≤ bytes.length) :
    piece bytes start stop = .ok ((bytes.drop start).take (stop - start)) := by
  unfold piece
  rw [isBoundary_of_lt h (by omega), isBoundary_of_lt h hlen, Bool.and_self, if_pos rfl,
    part_eq_ok hle hlen]

/-- What is cut off group by group is what has a mark before every three bytes. -/
theorem separateUpTo_eq_ok {bytes : Bytes} (h : ∀ x ∈ bytes, x < 0x80) (start stop : Nat)
    (hle : start ≤ stop) (hlen : stop ≤ bytes.length) :
    separateUpTo bytes start stop =
      .ok (bytes.take start ++ marked 0x5F ((bytes.drop start).take (stop - start))) := by
  induction stop using Nat.strongRecOn with
  | ind stop ih =>
    unfold separateUpTo
    by_cases hlong : start + 4 ≤ stop
    · obtain ⟨low, rfl⟩ : ∃ low, stop = low + 3 := ⟨stop - 3, by omega⟩
      have hlast := piece_eq_ok h (Nat.le_add_right low 3) hlen
      rw [Nat.add_sub_cancel_left] at hlast
      have hbefore := ih low (by omega) (by omega) (by omega)
      have hsplit : (bytes.drop start).take (low + 3 - start) =
          (bytes.drop start).take (low - start) ++ (bytes.drop low).take 3 := by
        rw [show low + 3 - start = (low - start) + 3 by omega, List.take_add, List.drop_drop,
          show start + (low - start) = low by omega]
      have hne : (bytes.drop start).take (low - start) ≠ [] := by
        intro hnil
        have hzero := congrArg List.length hnil
        simp only [List.length_drop, List.length_take, List.length_nil] at hzero
        omega
      have hthree : ((bytes.drop low).take 3).length = 3 := by
        rw [List.length_take, List.length_drop]
        omega
      rw [if_pos hlong]
      -- The remaining case is that the difference could not be taken.
      split
      · rename_i first hfirst
        obtain ⟨_, rfl⟩ := difference_eq_ok_iff.mp hfirst
        simp only [hlast, hbefore, ok_bind]
        rw [hsplit, marked_append hne hthree, ← List.append_assoc]
        rfl
      · rename_i stop hstop
        rw [difference_eq_ok (by omega)] at hstop
        cases hstop
    · have hshort : ((bytes.drop start).take (stop - start)).length ≤ 3 := by
        rw [List.length_take]
        omega
      rw [if_neg hlong, piece_eq_ok h (Nat.zero_le _) hlen, marked_eq_self hshort, List.drop_zero,
        Nat.sub_zero, ← List.take_add, Nat.add_sub_cancel' hle]

/-- A leading minus is kept out of the groups. -/
theorem groupBytes_encode {text : List Char} (h : IsAscii text) {start : Nat}
    (hstart : start = if text.head? = some '-' then 1 else 0) :
    start ≤ (Utf8.encode text).length ∧
      groupBytes (Utf8.encode text) =
        (Utf8.encode text).take start ++ marked 0x5F ((Utf8.encode text).drop start) := by
  subst hstart
  cases text with
  | nil => exact ⟨Nat.zero_le _, rfl⟩
  | cons c rest =>
    have hlt := h c List.mem_cons_self
    rw [Utf8.encode_cons, Utf8.encodeChar_of_lt hlt]
    by_cases hminus : c = '-'
    · subst hminus
      exact ⟨by simp, rfl⟩
    · have hbyte : UInt8.ofNat c.toNat ≠ 0x2D := by
        intro heq
        have hnat := congrArg UInt8.toNat heq
        rw [UInt8.toNat_ofNat_of_lt' (show c.toNat < 256 by omega)] at hnat
        exact hminus (Char.toNat_inj.mp hnat)
      rw [if_neg (by simpa using hminus)]
      refine ⟨Nat.zero_le _, ?_⟩
      unfold groupBytes
      split
      · rename_i heq
        exact absurd (List.cons.inj heq).1 hbyte
      · rfl

/-- An ascii text is separated as it is grouped. -/
theorem separate_eq_ok {text : List Char} (h : IsAscii text) :
    separate text = .ok (group text) := by
  obtain ⟨hstart, hgroup⟩ := groupBytes_encode h rfl
  have hseparated := separateUpTo_eq_ok h.lt_of_mem_encode _ _ hstart (Nat.le_refl _)
  rw [← List.length_drop, List.take_length, ← hgroup] at hseparated
  simp only [separate, group, hseparated, ok_bind]
  rfl

end Grouped

end Text

/-! ## Texts of numbers -/

open Text (IsAscii isAscii_decimal)

namespace Decimal

theorem isAscii_significant (d : Decimal) : IsAscii d.significant := by
  refine (isAscii_decimal d.coefficient).mono fun c hc => ?_
  rw [significant, List.mem_reverse] at hc
  have hmem := (List.dropWhile_sublist _).mem hc
  rwa [List.mem_reverse] at hmem

theorem isAscii_plain (d : Decimal) : IsAscii d.plain := by
  have hdigits := d.isAscii_significant
  unfold plain
  simp only
  split
  · exact .cons (by decide) (.cons (by decide) (.append (.replicate _ (by decide)) hdigits))
  · split
    · refine .append (hdigits.mono fun _ => List.mem_of_mem_take) (.cons (by decide) ?_)
      exact hdigits.mono fun _ => List.mem_of_mem_drop
    · exact .append hdigits (.replicate _ (by decide))

theorem isAscii_mantissa (d : Decimal) : IsAscii d.mantissa := by
  have hdigits := d.isAscii_significant
  unfold mantissa
  split
  · exact .nil
  · rename_i heq
    rwa [heq] at hdigits
  · rename_i first more heq
    rw [heq] at hdigits
    refine .cons (hdigits _ List.mem_cons_self) (.cons (by decide) ?_)
    exact hdigits.mono fun _ => List.mem_cons_of_mem _

theorem isAscii_withExponent (d : Decimal) : IsAscii d.withExponent := by
  refine .append d.isAscii_mantissa (.cons (by decide) (.cons ?_ (isAscii_decimal _)))
  split <;> decide

end Decimal

theorem Binary64.isAscii_chars (x : Binary64) : IsAscii x.chars := by
  have hdigits : IsAscii (if x.isPlain then x.shortest.plain else x.shortest.withExponent) := by
    split
    · exact x.shortest.isAscii_plain
    · exact x.shortest.isAscii_withExponent
  have hminus : IsAscii ['-'] := .cons (by decide) .nil
  unfold chars
  generalize (if x.isPlain then x.shortest.plain else x.shortest.withExponent) = digits at *
  split
  · simp [IsAscii]
  · split
    · split <;> simp [IsAscii]
    · split
      · exact .cons (by decide) .nil
      · split
        · exact hminus.append hdigits
        · exact hdigits

theorem isAscii_decimalText (n : Int) : IsAscii (decimalText n).toList := by
  cases n with
  | ofNat n =>
    show IsAscii (Nat.repr n).toList
    rw [Nat.toList_repr]
    exact isAscii_decimal n
  | negSucc n =>
    show IsAscii ("-" ++ Nat.repr (n + 1)).toList
    rw [String.toList_append, Nat.toList_repr]
    exact .cons (by decide) (isAscii_decimal _)

/-! ## Byte sequences -/

namespace Bytes

/-- A part is only counted as left out where there is one. -/
theorem toBufferText_eq_ok (content : Bytes) :
    content.toBufferText = .ok content.shownAsBuffer := by
  have hfirst : part content 0 (min content.length shownLimit) = .ok (content.take shownLimit) := by
    rw [part_eq_ok (Nat.zero_le _) (Nat.min_le_left _ _), List.drop_zero, Nat.sub_zero,
      Nat.min_comm, ← List.take_eq_take_min]
  simp only [toBufferText, shownAsBuffer, hfirst, ok_bind]
  by_cases hlong : shownLimit < content.length
  · rw [if_pos hlong, if_pos hlong, difference_eq_ok (Nat.le_of_lt hlong)]
    rfl
  · rw [if_neg hlong, if_neg hlong]
    rfl

theorem toItemsText_eq_ok (content : Bytes) : content.toItemsText = .ok content.shownAsItems := by
  unfold toItemsText shownAsItems
  split
  · rfl
  · by_cases hlong : itemLimit < content.length
    · rw [if_pos hlong, if_pos hlong, difference_eq_ok (Nat.le_of_lt hlong)]
      rfl
    · rw [if_neg hlong, if_neg hlong]
      rfl

end Bytes

/-! ## Values and faults -/

namespace Value

theorem toGroupedText_eq_ok {s : String} (h : IsAscii s.toList) :
    toGroupedText s = .ok (groupedText s) := by
  simp only [toGroupedText, Text.Grouped.separate_eq_ok h, ok_bind]
  rfl

theorem toShown_eq_ok (v : Operand) : v.toShown = .ok v.shown := by
  cases v with
  | bytes content => exact content.toItemsText_eq_ok
  | buffer content => exact content.toBufferText_eq_ok
  | _ => rfl

theorem toReceived_eq_ok (v : Operand) : v.toReceived = .ok v.received := by
  cases v with
  | number x =>
    have htext : IsAscii x.text.toList := by
      rw [Binary64.text, String.toList_ofList]
      exact x.isAscii_chars
    simp only [toReceived, received, toGroupedText_eq_ok htext]
    split <;> rfl
  | bigInteger n =>
    simp only [toReceived, received, toGroupedText_eq_ok (isAscii_decimalText n)]
    split <;> rfl
  | bytes content => exact content.toItemsText_eq_ok
  | buffer content => exact content.toBufferText_eq_ok
  | _ => rfl

end Value

namespace Fault

theorem toReceived_eq_ok (f : Fault) : f.toReceived = .ok f.received := by
  cases f with
  | outOfRange name expected received => exact received.toReceived_eq_ok
  | invalidValue name received => exact received.toShown_eq_ok
  | _ => rfl

/-- The message of every fault can be built. -/
theorem build_eq_ok (f : Fault) : f.build = .ok f.message := by
  rw [build, toReceived_eq_ok]
  rfl

end Fault

end Octets
