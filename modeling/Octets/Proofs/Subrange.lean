import Octets.Proofs.Comparison
import Octets.Proofs.Position

/-!
# Comparison of ranges

A comparison of a range of one window with a range of another is the comparison of the bytes in the
two ranges. It is carried out without taking the ranges: empty ones are told from their bounds, of
the others as many bytes are compared as both have, and then the numbers of their bytes. That this
is the lexicographic order is `Bytes.order_take_then`; that no bytes are missing is a consequence of
the ends, which must lie in the windows, while a start may be anywhere.

* `Content.compareRange_eq_ok_iff` — when ranges are compared, and with what result;
* `Content.compareRange_eq_error` — and else, which bound is refused;
* `Window.compareRange_lexicographic` — both together in the store.
-/

namespace Octets

open Argument (Bound bound_map_iff)

namespace Bytes

/-- As many bytes as both sequences have decide, or the sequences are of the order of their
lengths. -/
theorem order_take_then (a b : Bytes) :
    (order (a.take b.length) (b.take a.length)).then (compare a.length b.length) = order a b := by
  induction a generalizing b with
  | nil => cases b <;> simp [order, Nat.compare_eq_lt.mpr]
  | cons x xs ih =>
    cases b with
    | nil => simp [order, Nat.compare_eq_gt.mpr]
    | cons y ys =>
      have hlength : compare (xs.length + 1) (ys.length + 1) = compare xs.length ys.length := by
        simp only [Nat.compare_eq_ite_lt, Nat.add_lt_add_iff_right]
      simp only [List.length_cons, List.take_succ_cons, order, hlength]
      split
      · rfl
      · split
        · rfl
        · exact ih ys

/-- No bytes come before all others. -/
theorem order_nil_left {b : Bytes} (h : b ≠ []) : order [] b = .lt := by
  cases b with
  | nil => exact absurd rfl h
  | cons y ys => rfl

theorem order_nil_right {a : Bytes} (h : a ≠ []) : order a [] = .gt := by
  rw [← order_swap, order_nil_left h]
  rfl

end Bytes

namespace Content

variable {source target : Bytes} {targetStart targetStop sourceStart sourceStop : Operand}
  {ts te ss se : Nat} {o : Ordering}

/-! ## Two ranges -/

/-- The first bytes of two ranges and the numbers of their bytes give the order of the ranges. -/
theorem orderPieces_eq_ok (hs : ss ≤ se) (hse : se ≤ source.length) (ht : ts ≤ te)
    (hte : te ≤ target.length) :
    orderPieces source target ss (se - ss) ts (te - ts) (min (se - ss) (te - ts)) =
      .ok (Bytes.order (source.range ss se) (target.range ts te)) := by
  have hsource : (source.range ss se).length = se - ss := by rw [Bytes.length_range]; omega
  have htarget : (target.range ts te).length = te - ts := by rw [Bytes.length_range]; omega
  rw [orderPieces, part_eq_ok (Nat.le_add_right _ _) (by omega),
    part_eq_ok (Nat.le_add_right _ _) (by omega), Nat.add_sub_cancel_left, Nat.add_sub_cancel_left]
  -- What is compared of each range is its part that the other one is long.
  rw [← Bytes.order_take_then, hsource, htarget, Bytes.range, Bytes.range, List.take_take,
    List.take_take, Nat.min_comm (te - ts)]
  rfl

/-- What is compared where the bounds are let pass. -/
theorem compareRange_eq_ok
    (hts : Argument.positionOr targetStart "targetStart" maxLength 0 = .ok ts)
    (hte : Argument.positionOr targetStop "targetEnd" target.length target.length = .ok te)
    (hss : Argument.positionOr sourceStart "sourceStart" maxLength 0 = .ok ss)
    (hse : Argument.positionOr sourceStop "sourceEnd" source.length source.length = .ok se)
    (hsource : se ≤ source.length) (htarget : te ≤ target.length) :
    compareRange source target targetStart targetStop sourceStart sourceStop =
      .ok (Bytes.order (source.range ss se) (target.range ts te)) := by
  simp only [compareRange, hts, hte, hss, hse, liftM_ok, ok_bind]
  by_cases hs : se ≤ ss
  · rw [if_pos hs, Bytes.range_eq_nil source hs]
    by_cases ht : te ≤ ts
    · rw [if_pos ht, Bytes.range_eq_nil target ht]
      rfl
    · rw [if_neg ht, Bytes.order_nil_left (Bytes.range_ne_nil (Nat.not_le.mp ht) htarget)]
      rfl
  · rw [if_neg hs]
    by_cases ht : te ≤ ts
    · rw [if_pos ht, Bytes.range_eq_nil target ht,
        Bytes.order_nil_right (Bytes.range_ne_nil (Nat.not_le.mp hs) hsource)]
      rfl
    · -- A start in front of an end is inside, so no start is refused and no byte is missing.
      have hcount : min (min (se - ss) (te - ts)) (source.length - ss) =
          min (se - ss) (te - ts) := by omega
      rw [if_neg ht, refuse_eq_ok (by omega), refuse_eq_ok (by omega)]
      simp only [liftM_ok, ok_bind, difference_eq_ok (Nat.le_of_not_le hs),
        difference_eq_ok (Nat.le_of_not_le ht),
        difference_eq_ok (show ss ≤ source.length by omega), hcount]
      exact orderPieces_eq_ok (Nat.le_of_not_le hs) hsource (Nat.le_of_not_le ht) htarget

/-- Ranges are compared if and only if their bounds are what they must be, and are of the order of
their bytes. -/
theorem compareRange_eq_ok_iff (hsource : source.length ≤ maxLength)
    (htarget : target.length ≤ maxLength) :
    compareRange source target targetStart targetStop sourceStart sourceStop = .ok o ↔
      ∃ ts te ss se, Bound maxLength 0 targetStart ts ∧
        Bound target.length target.length targetStop te ∧ Bound maxLength 0 sourceStart ss ∧
        Bound source.length source.length sourceStop se ∧
        o = Bytes.order (source.range ss se) (target.range ts te) := by
  have hmax := Nat.le_refl maxLength
  constructor
  · intro h
    have hpositions := h
    simp only [compareRange, bind_eq_ok (r := liftM (Argument.positionOr _ _ _ _)),
      liftM_eq_ok_iff] at hpositions
    obtain ⟨ts, hts, te, hte, ss, hss, se, hse, -⟩ := hpositions
    have hsource' := Argument.positionOr_le hsource (Nat.le_refl _) hse
    have htarget' := Argument.positionOr_le htarget (Nat.le_refl _) hte
    rw [compareRange_eq_ok hts hte hss hse hsource' htarget'] at h
    exact ⟨ts, te, ss, se, (Argument.positionOr_eq_ok_iff hmax).mp hts,
      (Argument.positionOr_eq_ok_iff htarget).mp hte, (Argument.positionOr_eq_ok_iff hmax).mp hss,
      (Argument.positionOr_eq_ok_iff hsource).mp hse, (Except.ok.inj h).symm⟩
  · intro h
    obtain ⟨ts, te, ss, se, hts, hte, hss, hse, rfl⟩ := h
    exact compareRange_eq_ok ((Argument.positionOr_eq_ok_iff hmax).mpr hts)
      ((Argument.positionOr_eq_ok_iff htarget).mpr hte)
      ((Argument.positionOr_eq_ok_iff hmax).mpr hss)
      ((Argument.positionOr_eq_ok_iff hsource).mpr hse) (hse.le (Nat.le_refl _))
      (hte.le (Nat.le_refl _))

/-- A comparison of ranges that stops has refused one of the bounds, and says which. -/
theorem compareRange_eq_error (hsource : source.length ≤ maxLength)
    (htarget : target.length ≤ maxLength) {stop : Stop}
    (h : compareRange source target targetStart targetStop sourceStart sourceStop = .error stop) :
    ∃ f name v, stop = .fault f ∧
      (name, v) ∈ [("targetStart", targetStart), ("targetEnd", targetStop),
        ("sourceStart", sourceStart), ("sourceEnd", sourceStop)] ∧
      ((∃ expected, f = .outOfRange name expected v) ∨
        f = .wrongType name "of type number" v) := by
  have hpositions := h
  simp only [compareRange, bind_eq_error (r := liftM (Argument.positionOr _ _ _ _)),
    liftM_eq_error_iff, liftM_eq_ok_iff] at hpositions
  obtain ⟨f, hf, rfl⟩ | ⟨ts, hts, hpositions⟩ := hpositions
  · exact ⟨f, _, _, rfl, by simp, Argument.positionOr_eq_error hf⟩
  obtain ⟨f, hf, rfl⟩ | ⟨te, hte, hpositions⟩ := hpositions
  · exact ⟨f, _, _, rfl, by simp, Argument.positionOr_eq_error hf⟩
  obtain ⟨f, hf, rfl⟩ | ⟨ss, hss, hpositions⟩ := hpositions
  · exact ⟨f, _, _, rfl, by simp, Argument.positionOr_eq_error hf⟩
  obtain ⟨f, hf, rfl⟩ | ⟨se, hse, -⟩ := hpositions
  · exact ⟨f, _, _, rfl, by simp, Argument.positionOr_eq_error hf⟩
  -- Behind the four bounds nothing stops.
  rw [compareRange_eq_ok hts hte hss hse (Argument.positionOr_le hsource (Nat.le_refl _) hse)
    (Argument.positionOr_le htarget (Nat.le_refl _) hte)] at h
  cases h

end Content

namespace Window

variable {s : Store} {w other : Window}
  {targetStart targetStop sourceStart sourceStop : Value Window}

/-! ## Ranges of windows -/

/-- A comparison of ranges stops if and only if a bound is neither missing nor a whole number from
zero to the greatest one, which is the length of the window for an end and that of a block for a
start. It stops in a fault, and not in one without details about a start. Else it gives the
lexicographic order of the bytes in the two ranges, and so what a comparison of any two windows that
show these bytes gives. -/
theorem compareRange_lexicographic (hw : s.Holds w) (ho : s.Holds other)
    (hsource : w.length ≤ maxLength) (htarget : other.length ≤ maxLength)
    (hts : ∀ v ∈ targetStart.buffers, s.Holds v) (hte : ∀ v ∈ targetStop.buffers, s.Holds v)
    (hss : ∀ v ∈ sourceStart.buffers, s.Holds v) (hse : ∀ v ∈ sourceStop.buffers, s.Holds v) :
    ((∃ stop t, (w.compareRange other targetStart targetStop sourceStart sourceStop).run s =
        .error stop t) ↔
      (¬∃ n, Bound maxLength 0 targetStart n) ∨
      (¬∃ n, Bound other.length other.length targetStop n) ∨
      (¬∃ n, Bound maxLength 0 sourceStart n) ∨
      ¬∃ n, Bound w.length w.length sourceStop n) ∧
    (∀ stop t, (w.compareRange other targetStart targetStop sourceStart sourceStop).run s =
      .error stop t → t = s ∧ ∃ f, stop = .fault f ∧ ∀ name, f ≠ .outsideDomain name) ∧
    ∀ ts te ss se, Bound maxLength 0 targetStart ts →
      Bound other.length other.length targetStop te → Bound maxLength 0 sourceStart ss →
      Bound w.length w.length sourceStop se →
      ∃ o, (w.compareRange other targetStart targetStop sourceStart sourceStop).run s = .ok o s ∧
        (o = .lt ↔ List.Lex (· < ·) ((s.read w).range ss se) ((s.read other).range ts te)) ∧
        (o = .eq ↔ (s.read w).range ss se = (s.read other).range ts te) ∧
        (o = .gt ↔ List.Lex (· < ·) ((s.read other).range ts te) ((s.read w).range ss se)) ∧
        ∀ a b : Window, s.Holds a → s.Holds b → s.read a = (s.read w).range ss se →
          s.read b = (s.read other).range ts te → (a.compare b).run s = .ok o s := by
  have hwread := Store.length_read hw
  have horead := Store.length_read ho
  have hiff := fun o => @Content.compareRange_eq_ok_iff (s.read w) (s.read other)
    (targetStart.map s.read) (targetStop.map s.read) (sourceStart.map s.read)
    (sourceStop.map s.read) o (hwread.trans_le hsource) (horead.trans_le htarget)
  have herror := @Content.compareRange_eq_error (s.read w) (s.read other)
    (targetStart.map s.read) (targetStop.map s.read) (sourceStart.map s.read)
    (sourceStop.map s.read) (hwread.trans_le hsource) (horead.trans_le htarget)
  simp only [bound_map_iff, hwread, horead] at hiff
  rw [run_compareRange hw ho hts hte hss hse]
  generalize Content.compareRange (s.read w) (s.read other) _ _ _ _ = r at hiff herror
  refine ⟨⟨?_, ?_⟩, ?_, ?_⟩
  · intro h
    obtain ⟨stop, t, h⟩ := h
    -- Were all bounds what they must be, there would be an order.
    by_contra hall
    simp only [not_or, not_not] at hall
    obtain ⟨⟨ts, hts⟩, ⟨te, hte⟩, ⟨ss, hss⟩, se, hse⟩ := hall
    rw [(hiff _).mpr ⟨ts, te, ss, se, hts, hte, hss, hse, rfl⟩] at h
    cases h
  · intro h
    cases r with
    | error stop => exact ⟨stop, s, rfl⟩
    | ok o =>
      obtain ⟨ts, te, ss, se, hts, hte, hss, hse, -⟩ := (hiff o).mp rfl
      rcases h with h | h | h | h
      · exact absurd ⟨ts, hts⟩ h
      · exact absurd ⟨te, hte⟩ h
      · exact absurd ⟨ss, hss⟩ h
      · exact absurd ⟨se, hse⟩ h
  · intro stop t h
    cases r with
    | error stop' =>
      cases h
      obtain ⟨f, name, v, rfl, -, hf⟩ := herror rfl
      refine ⟨rfl, f, rfl, ?_⟩
      rintro name' rfl
      rcases hf with ⟨expected, hf⟩ | hf <;> cases hf
    | ok o => cases h
  · intro ts te ss se hts hte hss hse
    refine ⟨_, by rw [(hiff _).mpr ⟨ts, te, ss, se, hts, hte, hss, hse, rfl⟩]; rfl,
      Bytes.order_lt_iff, Bytes.order_eq_iff, Bytes.order_gt_iff, ?_⟩
    intro a b ha hb haread hbread
    rw [run_compare ha hb, haread, hbread]

/-- A range that stops at the end of its window, in a window that shares bytes with the other one,
and an end that is behind the window. -/
theorem compareRange_lexicographic_overlap :
    let s : Store := ⟨[[1, 2, 1, 2, 3]]⟩
    let w : Window := ⟨0, 0, 4⟩
    let other : Window := ⟨0, 2, 3⟩
    (w.compareRange other .undefined (.ofInt 2) (.ofInt 1) .undefined).run s = .ok .gt s ∧
      List.Lex (· < ·) ([1, 2] : Bytes) [2, 1, 2] ∧
      (w.compareRange other (.ofInt 9) .undefined (.ofInt 1) (.ofInt 1)).run s = .ok .eq s ∧
      ∃ stop t, (w.compareRange other .undefined (.ofInt 4) .undefined .undefined).run s =
        .error stop t := by
  intro s w other
  have hw : s.Holds w := by decide
  have ho : s.Holds other := by decide
  have hnone : ∀ v ∈ ([] : List Window), s.Holds v := by simp
  have hnumber : ∀ {max default : Nat} (k : Nat), k < 16 → k ≤ max →
      Bound max default (.ofInt k : Value Window) k := fun k hk hle =>
    .number (Binary64.hasValue_ofInt (by unfold Binary64.IsSmall; omega)) hle
  refine ⟨?_, ?_, ?_, ?_⟩
  · obtain ⟨o, hrun, -, -, hgt, -⟩ :=
      (@compareRange_lexicographic s w other .undefined (.ofInt 2) (.ofInt 1) .undefined hw ho
        (by decide) (by decide) hnone hnone hnone hnone).2.2 0 2 1 4 .missing
        (hnumber 2 (by decide) (by decide)) (hnumber 1 (by decide) (by decide)) .missing
    rw [hrun, hgt.mpr (by decide)]
  · decide
  · obtain ⟨o, hrun, -, heq, -⟩ :=
      (@compareRange_lexicographic s w other (.ofInt 9) .undefined (.ofInt 1) (.ofInt 1) hw ho
        (by decide) (by decide) hnone hnone hnone hnone).2.2 9 3 1 1
        (hnumber 9 (by decide) (by decide)) .missing (hnumber 1 (by decide) (by decide))
        (hnumber 1 (by decide) (by decide))
    rw [hrun, heq.mpr (by decide)]
  · refine (@compareRange_lexicographic s w other .undefined (.ofInt 4) .undefined .undefined hw ho
      (by decide) (by decide) hnone hnone hnone hnone).1.mpr (.inr (.inl ?_))
    intro h
    obtain ⟨n, h⟩ := h
    obtain ⟨hx, hle⟩ := Argument.bound_number_iff.mp h
    have hle : n ≤ 3 := hle
    have hvalue := hx.trunc.symm.trans (Binary64.hasValue_ofInt (by decide)).trunc
    omega

end Window

end Octets
