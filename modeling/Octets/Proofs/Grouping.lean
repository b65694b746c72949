import Octets.Proofs.Message
import Octets.Proofs.Numeral
import Octets.Proofs.Unicode

/-!
# How large numbers are grouped

The received value of a range message is grouped if it is a whole number beyond `2 ^ 32`
(`Value.Large`). Marks are put into the text of the number by counting from its end, and taking them
out again gives that text back, whatever it is (`Text.Grouped.filter_marked`). Where the text is
made of digits behind an optional minus, this makes groups of three digits, of which the first one
may be shorter (`Text.Grouped.isGrouped_signed`).

Big integers have such texts, and so have numbers below `10 ^ 21`, since the shortest decimal of a
whole number has no digits behind its point. Numbers from there on are written with an exponent of
two or three digits, and a mark is put next to its sign (`Value.received_of_large`).
-/

namespace Octets

open Json (Digits)
open Text (IsAscii signed)

namespace Text

namespace Grouped

/-! ## Marks -/

section Marks

variable {α β : Type} {mark : α} {items : List α}

/-- The items are cut into groups of three, with what is left in front of them. -/
theorem exists_groups (mark : α) (hne : items ≠ []) :
    ∃ (lead : List α) (groups : List (List α)), items = lead ++ groups.flatten ∧
      marked mark items = lead ++ groups.flatMap (mark :: ·) ∧
      lead ≠ [] ∧ lead.length ≤ 3 ∧ ∀ group ∈ groups, group.length = 3 := by
  induction hlength : items.length using Nat.strongRecOn generalizing items with
  | ind n ih =>
    by_cases hshort : items.length ≤ 3
    · refine ⟨items, [], ?_, ?_, hne, hshort, fun _ h => nomatch h⟩
      · rw [List.flatten_nil, List.append_nil]
      · rw [List.flatMap_nil, List.append_nil, marked_eq_self hshort]
    · -- The last three are a group, and the rest is cut before them.
      have hsplit := List.take_append_drop (items.length - 3) items
      generalize hbefore : items.take (items.length - 3) = before at hsplit
      generalize hlast : items.drop (items.length - 3) = last at hsplit
      have hlengthBefore : before.length = items.length - 3 := by
        rw [← hbefore, List.length_take]
        omega
      have hlengthLast : last.length = 3 := by
        rw [← hlast, List.length_drop]
        omega
      have hneBefore : before ≠ [] := List.ne_nil_of_length_pos (by omega)
      obtain ⟨lead, groups, hitems, hmarked, hlead, hthree, hgroups⟩ :=
        ih before.length (by omega) hneBefore rfl
      refine ⟨lead, groups ++ [last], ?_, ?_, hlead, hthree, ?_⟩
      · rw [List.flatten_append, List.flatten_singleton, ← List.append_assoc, ← hitems, hsplit]
      · rw [List.flatMap_append, List.flatMap_singleton, ← List.append_assoc, ← hmarked,
          ← marked_append hneBefore hlengthLast, hsplit]
      · exact List.forall_mem_append.mpr ⟨hgroups, List.forall_mem_singleton.mpr hlengthLast⟩

theorem marked_map (f : α → β) (mark : α) (items : List α) :
    marked (f mark) (items.map f) = (marked mark items).map f := by
  induction items using marked.induct with
  | case1 => rfl
  | case2 a => rfl
  | case3 a b rest hmark ih => simpa [marked, hmark] using ih
  | case4 a b rest hmark ih => simpa [marked, hmark] using ih

theorem eq_or_mem_of_mem_marked {a : α} (h : a ∈ marked mark items) : a = mark ∨ a ∈ items := by
  induction items using marked.induct with
  | case1 => exact .inr h
  | case2 b => exact .inr h
  | case3 b c rest hmark ih =>
    rw [marked, if_pos hmark] at h
    rcases List.mem_cons.mp h with rfl | h
    · exact .inr List.mem_cons_self
    · rcases List.mem_cons.mp h with rfl | h
      · exact .inl rfl
      · exact (ih h).imp_right (List.mem_cons_of_mem b)
  | case4 b c rest hmark ih =>
    rw [marked, if_neg hmark] at h
    rcases List.mem_cons.mp h with rfl | h
    · exact .inr List.mem_cons_self
    · exact (ih h).imp_right (List.mem_cons_of_mem b)

/-- Nothing is changed but for the marks. -/
theorem filter_marked [DecidableEq α] (h : ∀ a ∈ items, a ≠ mark) :
    (marked mark items).filter (· ≠ mark) = items := by
  induction items using marked.induct with
  | case1 => rfl
  | case2 a =>
    have ha : a ≠ mark := h a List.mem_cons_self
    simp [marked, ha]
  | case3 a b rest hmark ih =>
    obtain ⟨ha, hrest⟩ := List.forall_mem_cons.mp h
    simpa [marked, hmark, ha] using ih hrest
  | case4 a b rest hmark ih =>
    obtain ⟨ha, hrest⟩ := List.forall_mem_cons.mp h
    simpa [marked, hmark, ha] using ih hrest

/-- No mark stands at the end. -/
theorem getLast?_marked (mark : α) (items : List α) :
    (marked mark items).getLast? = items.getLast? := by
  induction items using marked.induct with
  | case1 => rfl
  | case2 a => rfl
  | case3 a b rest hmark ih =>
    simp [marked, hmark, ih, List.getLast?_cons]
  | case4 a b rest hmark ih =>
    simp [marked, hmark, ih, List.getLast?_cons]

end Marks

/-! ## Texts -/

theorem encode_eq_map {text : List Char} (h : IsAscii text) :
    Utf8.encode text = text.map fun c => UInt8.ofNat c.toNat := by
  induction text with
  | nil => rfl
  | cons c rest ih =>
    rw [Utf8.encode_cons, Utf8.encodeChar_of_lt (h c List.mem_cons_self), List.singleton_append,
      ih (h.mono fun _ => List.mem_cons_of_mem c), List.map_cons]

/-- On ascii texts, characters are counted where bytes are. -/
theorem group_signed (negative : Bool) {body : List Char} (h : IsAscii body)
    (hminus : body.head? ≠ some '-') :
    group (signed negative body) = signed negative (marked '_' body) := by
  have hmarked : IsAscii (marked '_' body) := fun c hc => by
    rcases eq_or_mem_of_mem_marked hc with rfl | hc
    · decide
    · exact h c hc
  have hbody : marked 0x5F (Utf8.encode body) = Utf8.encode (marked '_' body) := by
    rw [encode_eq_map h, encode_eq_map hmarked, ← marked_map]
    rfl
  cases negative with
  | false =>
    have hgroup := (groupBytes_encode h rfl).2
    rw [if_neg hminus, List.take_zero, List.drop_zero, List.nil_append, hbody] at hgroup
    rw [signed, if_neg Bool.false_ne_true, group, hgroup, Utf8.decode_encode]
    rfl
  | true =>
    have hgroup :
        groupBytes (Utf8.encode ('-' :: body)) = Utf8.encode ('-' :: marked '_' body) := by
      rw [Utf8.encode_cons, Utf8.encode_cons, ← hbody]
      rfl
    rw [signed, if_pos rfl, group, hgroup, Utf8.decode_encode]
    rfl

/-- The digits of a number behind an optional minus, in groups of three, of which the first one may
be shorter. -/
inductive IsGrouped : List Char → Prop where
  | mk (negative : Bool) {lead : List Char} {groups : List (List Char)} (hlead : Digits lead)
    (hlength : lead.length ≤ 3) (hgroups : ∀ group ∈ groups, Digits group ∧ group.length = 3) :
    IsGrouped (signed negative (lead ++ groups.flatMap ('_' :: ·)))

theorem isGrouped_signed (negative : Bool) {body : List Char} (h : Digits body) :
    IsGrouped (signed negative (marked '_' body)) := by
  obtain ⟨lead, groups, hbody, hmarked, hlead, hlength, hgroups⟩ := exists_groups '_' h.1
  rw [hmarked]
  refine .mk negative ⟨hlead, fun c hc => h.2 c ?_⟩ hlength fun group hgroup =>
    ⟨⟨?_, fun c hc => h.2 c ?_⟩, hgroups group hgroup⟩
  · exact hbody ▸ List.mem_append_left _ hc
  · exact List.ne_nil_of_length_pos (by rw [hgroups group hgroup]; decide)
  · exact hbody ▸ List.mem_append_right _ (List.mem_flatten.mpr ⟨group, hgroup, hc⟩)

/-- Nothing but digits, marks and a minus stands in grouped digits. -/
theorem IsGrouped.plus_not_mem {text : List Char} (h : IsGrouped text) : '+' ∉ text := by
  obtain ⟨negative, hlead, -, hgroups⟩ := h
  have hdigit : ∀ {digits : List Char}, Digits digits → '+' ∉ digits := fun h hmem =>
    absurd (h.2 '+' hmem) (by decide)
  have hbody : ∀ groups : List (List Char), (∀ group ∈ groups, Digits group ∧ group.length = 3) →
      '+' ∉ groups.flatMap ('_' :: ·) := by
    intro groups hgroups hmem
    obtain ⟨group, hgroup, hmem⟩ := List.mem_flatMap.mp hmem
    rcases List.mem_cons.mp hmem with hmark | hmem
    · exact absurd hmark (by decide)
    · exact hdigit (hgroups group hgroup).1 hmem
  have hplain := fun h => (List.mem_append.mp h).elim (hdigit hlead) (hbody _ hgroups)
  cases negative with
  | false => exact hplain
  | true => exact fun h => (List.mem_cons.mp h).elim (by decide) hplain

/-- In front of the last three characters of an exponent of two or three digits, a mark stands next
to its sign. -/
theorem exists_beside_plus (negative : Bool) (front : List Char) {digits : List Char}
    (h : digits.length = 2 ∨ digits.length = 3) :
    ∃ before after, signed negative (marked '_' (front ++ 'e' :: '+' :: digits)) =
      before ++ '_' :: after ∧ (before.getLast? = some '+' ∨ after.head? = some '+') := by
  have hsplit : ∃ before after, marked '_' (front ++ 'e' :: '+' :: digits) =
      before ++ '_' :: after ∧ (before.getLast? = some '+' ∨ after.head? = some '+') := by
    rcases h with htwo | hthree
    · have hmarked : marked '_' (front ++ ['e'] ++ '+' :: digits) =
          marked '_' (front ++ ['e']) ++ '_' :: '+' :: digits :=
        marked_append (by simp) (by rw [List.length_cons, htwo])
      rw [List.append_assoc, List.singleton_append] at hmarked
      exact ⟨_, _, hmarked, .inr rfl⟩
    · have hmarked : marked '_' (front ++ ['e', '+'] ++ digits) =
          marked '_' (front ++ ['e', '+']) ++ '_' :: digits :=
        marked_append (by simp) hthree
      rw [List.append_assoc] at hmarked
      refine ⟨_, _, hmarked, .inl ?_⟩
      rw [getLast?_marked, List.getLast?_append]
      rfl
  obtain ⟨before, after, htext, hplus⟩ := hsplit
  refine ⟨signed negative before, after, ?_, hplus.imp_left fun hlast => ?_⟩
  · rw [htext]
    cases negative <;> rfl
  · cases negative with
    | false => exact hlast
    | true => rw [signed, if_pos rfl, List.getLast?_cons, hlast, Option.getD_some]

end Grouped

end Text

/-! ## Numbers -/

/-- A decimal without digits behind the point is written with digits only. -/
theorem Decimal.digits_plain {d : Decimal} (hpositive : 0 < d.coefficient)
    (hexponent : 0 ≤ d.exponent) : Digits d.plain := by
  have hdigits := digits_significant hpositive
  obtain ⟨k, -, hlength⟩ := d.exists_zeros
  have hpoint : d.point = d.length + d.exponent := rfl
  have hsome := List.length_pos_of_ne_nil hdigits.1
  simp only [plain]
  rw [if_neg (by omega), if_neg (by omega)]
  exact digits_append_zeros hdigits _

namespace Binary64

variable {x : Binary64}

/-- A large whole number below the greatest that is written plainly has digits only. -/
theorem digits_body (hwhole : x.isWhole = true)
    (hlarge : 2 ^ Value.groupingBits * one < x.magnitude)
    (h : x.magnitude < 10 ^ plainDigits * one) : Digits x.body := by
  have hzero : x.isZero = false := isZero_of_magnitude_pos (Nat.zero_lt_of_lt hlarge)
  have hfinite : x.isFinite = true := (Bool.and_eq_true_iff.mp hwhole).1
  have hleast : leastPlain.magnitude ≤ 2 ^ Value.groupingBits * one := by decide +kernel
  have hplain : x.isPlain = true :=
    decide_eq_true ⟨Nat.le_trans hleast (Nat.le_of_lt hlarge), h⟩
  rw [body, if_pos hplain]
  exact Decimal.digits_plain (coefficient_shortest_pos hfinite hzero)
    (exponent_shortest hwhole hzero)

/-- A number that is too large for this has an exponent of two or three digits. -/
theorem exists_exponent (hfinite : x.isFinite = true) (h : 10 ^ plainDigits * one ≤ x.magnitude) :
    ∃ front digits, x.body = front ++ 'e' :: '+' :: digits ∧
      (digits.length = 2 ∨ digits.length = 3) := by
  have hone : 0 < 10 ^ plainDigits * one := by decide +kernel
  have hzero : x.isZero = false := isZero_of_magnitude_pos (Nat.lt_of_lt_of_le hone h)
  have hplain : ¬x.isPlain = true := fun hplain =>
    Nat.not_lt.mpr h (of_decide_eq_true hplain).2
  have hhigh := point_shortest_le hfinite hzero
  have hlow : ¬x.expansion.point ≤ plainDigits :=
    mt (point_expansion_le_iff x plainDigits).mp (Nat.not_lt.mpr h)
  have hle := point_expansion_le x
  have hdigits : plainDigits = 21 := rfl
  have hlength : ∀ {k : Nat}, 0 < k → ((Text.decimal (x.shortest.point - 1).natAbs).length ≤ k ↔
      (x.shortest.point - 1).natAbs < 10 ^ k) := fun hk => Nat.length_toDigits_le_iff (by decide) hk
  have hthree := hlength (k := 3) (by decide)
  have hone := hlength (k := 1) (by decide)
  refine ⟨x.shortest.mantissa, Text.decimal (x.shortest.point - 1).natAbs, ?_, by omega⟩
  rw [body, if_neg hplain, Decimal.withExponent, if_neg (by omega)]

end Binary64

theorem decimalText_toList (n : Int) :
    (decimalText n).toList = signed (decide (n < 0)) (Text.decimal n.natAbs) := by
  cases n with
  | ofNat n => exact Nat.toList_repr
  | negSucc n =>
    show ("-" ++ Nat.repr (n + 1)).toList = _
    rw [String.toList_append, Nat.toList_repr, signed,
      if_pos (decide_eq_true (Int.negSucc_lt_zero n))]
    rfl

namespace Value

open Text.Grouped

/-- A whole number beyond `2 ^ 32`, with its text and what stands behind that when it is
received. -/
inductive Large : Operand → List Char → List Char → Prop where
  | number {x : Binary64} (hwhole : x.isWhole = true)
    (hlarge : 2 ^ groupingBits * Binary64.one < x.magnitude) : Large (.number x) x.text.toList []
  | bigInteger {n : Int} (hlarge : BigInteger.exceeds n groupingBits = true) :
    Large (.bigInteger n) (decimalText n).toList ['n']

/-- The value is a number that is written with an exponent. -/
def HasExponent (v : Operand) : Prop :=
  ∃ x : Binary64, v = .number x ∧ 10 ^ Binary64.plainDigits * Binary64.one ≤ x.magnitude

theorem hasExponent_number {x : Binary64} : HasExponent (.number x) ↔
    10 ^ Binary64.plainDigits * Binary64.one ≤ x.magnitude := by
  refine ⟨?_, fun h => ⟨x, rfl, h⟩⟩
  rintro ⟨y, hy, h⟩
  cases hy
  exact h

/-- The text of a large number has a minus in front or none, and behind it either digits only or an
exponent at the end. -/
theorem Large.exists_body {v : Operand} {plain suffix : List Char} (h : Large v plain suffix) :
    v.received.toList = group plain ++ suffix ∧ ∃ negative body, plain = signed negative body ∧
      (∀ c ∈ body, Decimal.IsNumeral c) ∧ body.head? ≠ some '-' ∧
      (¬HasExponent v ∧ Digits body ∨ HasExponent v ∧ ∃ front digits,
        body = front ++ 'e' :: '+' :: digits ∧ (digits.length = 2 ∨ digits.length = 3)) := by
  cases h with
  | @number x hwhole hlarge =>
    have hzero := Binary64.isZero_of_magnitude_pos (Nat.zero_lt_of_lt hlarge)
    have hfinite : x.isFinite = true := (Bool.and_eq_true_iff.mp hwhole).1
    obtain ⟨d, hwritten, -⟩ := Binary64.exists_written hfinite hzero
    obtain ⟨first, more, hbody, hfirst⟩ := hwritten.exists_cons
    refine ⟨?_, x.negative, x.body, ?_, hwritten.isNumeral, ?_, ?_⟩
    · have hcondition :
          (x.isWhole && decide (2 ^ groupingBits * Binary64.one < x.magnitude)) = true :=
        Bool.and_eq_true_iff.mpr ⟨hwhole, decide_eq_true hlarge⟩
      rw [received, if_pos hcondition, groupedText, String.toList_ofList, List.append_nil]
    · rw [Binary64.text_of_isFinite hfinite hzero, String.toList_ofList]
    · rw [hbody]
      exact fun h => absurd (Option.some.inj h) (Json.ne_of_isDigit hfirst rfl)
    · rw [hasExponent_number]
      by_cases hexponent : 10 ^ Binary64.plainDigits * Binary64.one ≤ x.magnitude
      · exact .inr ⟨hexponent, Binary64.exists_exponent hfinite hexponent⟩
      · exact .inl ⟨hexponent, Binary64.digits_body hwhole hlarge (Nat.not_le.mp hexponent)⟩
  | @bigInteger n hlarge =>
    have hdigits := Decimal.digits_decimal n.natAbs
    obtain ⟨first, more, hbody, hfirst⟩ := hdigits.exists_cons
    refine ⟨?_, decide (n < 0), Text.decimal n.natAbs, decimalText_toList n,
      fun c hc => .inl (hdigits.2 c hc), ?_, .inl ⟨?_, hdigits⟩⟩
    · rw [received, if_pos hlarge, String.toList_append, groupedText, String.toList_ofList]
      rfl
    · rw [hbody]
      exact fun h => absurd (Option.some.inj h) (Json.ne_of_isDigit hfirst rfl)
    · rintro ⟨x, hx, -⟩
      cases hx

/-- A large number is received in groups of digits if it has no exponent. Where it has one, a mark
stands next to the sign of the exponent. Without the marks it is the text of the number in either
case. -/
theorem received_of_large {v : Operand} {plain suffix : List Char} (h : Large v plain suffix) :
    v.toReceived = .ok v.received ∧ ∃ text, v.received.toList = text ++ suffix ∧
      text.filter (· ≠ '_') = plain ∧ (IsGrouped text ↔ ¬HasExponent v) ∧
      (HasExponent v → ∃ before after, text = before ++ '_' :: after ∧
        (before.getLast? = some '+' ∨ after.head? = some '+')) := by
  obtain ⟨hreceived, negative, body, rfl, hnumeral, hminus, hbody⟩ := h.exists_body
  have hascii : IsAscii body := fun c hc => (hnumeral c hc).toNat_lt
  have hmarks : ∀ c ∈ body, c ≠ '_' := by
    rintro c hc rfl
    exact absurd (hnumeral '_' hc) (by decide)
  rw [group_signed negative hascii hminus] at hreceived
  refine ⟨toReceived_eq_ok v, _, hreceived, ?_, ?_⟩
  · have hfilter := filter_marked hmarks
    cases negative with
    | false => exact hfilter
    | true => exact congrArg ('-' :: ·) hfilter
  · rcases hbody with ⟨hnone, hdigits⟩ | ⟨hsome, front, digits, rfl, hdigits⟩
    · exact ⟨iff_of_true (isGrouped_signed negative hdigits) hnone, fun h => absurd h hnone⟩
    · obtain ⟨before, after, htext, hplus⟩ := exists_beside_plus negative front hdigits
      refine ⟨iff_of_false (fun hgrouped => hgrouped.plus_not_mem ?_) (not_not_intro hsome),
        fun _ => ⟨before, after, htext, hplus⟩⟩
      rw [htext]
      rcases hplus with hplus | hplus
      · exact List.mem_append_left _ (List.mem_of_getLast? hplus)
      · exact List.mem_append_right _ (List.mem_cons_of_mem _ (List.mem_of_head? hplus))

/-- The groups of a negative number of eleven digits. -/
theorem received_of_large_negative :
    Large (.number (Binary64.ofInt (-12345678901))) "-12345678901".toList [] ∧
      ∃ text, (number (Binary64.ofInt (-12345678901)) : Operand).received.toList = text ++ [] ∧
        text.filter (· ≠ '_') = "-12345678901".toList ∧ IsGrouped text := by
  have hplain : (Binary64.ofInt (-12345678901)).text = "-12345678901" := by decide +kernel
  have hlarge : Large (.number (Binary64.ofInt (-12345678901))) "-12345678901".toList [] :=
    hplain ▸ .number (by decide +kernel) (by decide +kernel)
  obtain ⟨-, text, htext, hfilter, hgrouped, -⟩ := received_of_large hlarge
  refine ⟨hlarge, text, htext, hfilter, hgrouped.mpr ?_⟩
  rw [hasExponent_number]
  decide +kernel

/-- The least number with an exponent has a mark between the letter and the sign of it. -/
theorem received_exponent :
    Large (.number (Binary64.ofNat (10 ^ 21))) "1e+21".toList [] ∧
      (number (Binary64.ofNat (10 ^ 21)) : Operand).received = "1e_+21" ∧
      ¬IsGrouped "1e_+21".toList := by
  have hplain : (Binary64.ofNat (10 ^ 21)).text = "1e+21" := by decide +kernel
  exact ⟨hplain ▸ .number (by decide +kernel) (by decide +kernel), by decide +kernel,
    fun h => h.plus_not_mem (by decide)⟩

example : (bigInteger (-4294967297) : Operand).received = "-4_294_967_297n" := by decide +kernel

end Value

end Octets
