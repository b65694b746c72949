import Octets.Proofs.Integral

/-!
# Fields are positional

What is read from a field of an integer is told from its bytes alone, as digits to the base 256:
their sum without a sign, and with one the integer in the range around zero that is congruent to it.
Two things follow about fields: the reversed bytes are read the same in the other byte order, and
most significant byte first a field is its upper part shifted by the width of its lower part, plus
the lower part.

* `Word.digitSum` — the sum of the digits of a field;
* `Field.Integral.load_positional` — all of this for every field of an integer in a window.
-/

namespace Octets

open Argument (StartsAt)

namespace Word

/-- The sum of the digits in the field of `width` bytes that begins at byte `k`. -/
def digitSum (order : ByteOrder) (content : Bytes) (k width : Nat) : Nat :=
  ∑ i ∈ Finset.range width, (content.getD (k + i) 0).toNat * 256 ^ weight order width i

/-- The word of a field is the sum of its digits. -/
theorem ofBytes_range (order : ByteOrder) {content : Bytes} {k width : Nat}
    (h : k + width ≤ content.length) :
    ofBytes order (content.range k (k + width)) = digitSum order content k width := by
  rw [ofBytes_eq_sum, Bytes.length_range_add h, digitSum]
  refine Finset.sum_congr rfl fun i hi => ?_
  rw [Finset.mem_range] at hi
  rw [List.getD_eq_getElem?_getD, List.getD_eq_getElem?_getD, Bytes.getElem?_range _ (by omega)]

end Word

namespace Layout

/-- The layout with the other byte order. -/
def opposite (l : Layout) : Layout := { l with order := l.order.opposite }

/-- Most significant byte first, a field of the layout is one of the first layout, which has its
sign, and just after it one of the second. -/
structure Splits (l upper lower : Layout) : Prop where
  width : l.width = upper.width + lower.width
  order : l.order = .big ∧ upper.order = .big ∧ lower.order = .big
  signed : upper.signed = l.signed
  unsigned : lower.signed = false

/-- The value of a field that is split is put together from those of its parts. -/
theorem Splits.toInt {l upper lower : Layout} (h : l.Splits upper lower) {first second : Bytes}
    (hsecond : second.length = lower.width) :
    Word.toInt l.signed l.bits (Word.ofBytes l.order (first ++ second)) =
      Word.toInt upper.signed upper.bits (Word.ofBytes upper.order first) * 256 ^ lower.width +
        Word.toInt lower.signed lower.bits (Word.ofBytes lower.order second) := by
  obtain ⟨horder, hupper, hlower⟩ := h.order
  have hlt : Word.ofBytes .big second < 256 ^ lower.width := by
    have hword := Word.ofBytes_lt .big second
    rwa [hsecond, Nat.pow_mul] at hword
  have hlow : Word.toInt lower.signed lower.bits (Word.ofBytes .big second) =
      Word.ofBytes .big second := by
    rw [h.unsigned]
    rfl
  rw [horder, hupper, hlower, Word.ofBytes_big_append, hsecond, hlow, h.signed, Layout.bits,
    h.width, Word.toInt_append l.signed upper.width_pos hlt]
  rfl

end Layout

namespace Field.Integral

variable {ω : Type} {a : Integral ω} {offset : Value ω} {l : Layout} {length k : Nat}

/-- The field with the other byte order. -/
def opposite : Integral ω → Integral ω
  | .fixed l => .fixed l.opposite
  | .sized signed order width => .sized signed order.opposite width
  | .big signed order => .big signed order.opposite

/-- A field with the other byte order lies where the field does. -/
theorem LiesAt.opposite (h : a.LiesAt length offset l k) :
    a.opposite.LiesAt length offset l.opposite k := by
  cases h with
  | fixed hwidth hstart hroom => exact .fixed hwidth hstart hroom
  | sized hwidth hx hy hroom => exact LiesAt.sized (l := l.opposite) hwidth hx hy hroom
  | big hstart hroom => exact .big hstart hroom

/-- A field that lies somewhere has no buffer among its arguments. -/
theorem LiesAt.buffers_eq (h : a.LiesAt length offset l k) :
    a.buffers = [] ∧ offset.buffers = [] := by
  have hoffset : offset.buffers = [] := by cases h.startsAt <;> rfl
  refine ⟨?_, hoffset⟩
  cases h <;> rfl

/-! ## Reading -/

section

variable {s : Store} {w : Window} {a : Integral Window} {offset : Value Window}

/-- The integer of the bytes where the field lies is read, and the store is left as it is. -/
theorem run_load_eq_ok (hw : s.Holds w) (hlength : w.length ≤ maxLength)
    (h : a.LiesAt w.length offset l k) :
    (a.load w offset).run s =
      .ok (Word.toInt l.signed l.bits
        (Word.ofBytes l.order ((s.read w).range k (k + l.width)))) s := by
  obtain ⟨ha, ho⟩ := h.buffers_eq
  have hread := Store.length_read hw
  have hlies : (a.map s.read).LiesAt (s.read w).length (offset.map s.read) l k :=
    (liesAt_map_iff s.read).mpr (hread ▸ h)
  have hvalue := (read_eq_ok_iff (hread.trans_le hlength)).mpr ⟨l, k, hlies, rfl⟩
  rw [run_load hw (by simp [ha]) (by simp [ho]), hvalue]
  rfl

/-- Where the bytes of a field are reversed, the field with the other byte order is read as the
integer of the bytes that are not. -/
theorem run_load_reversed {bytes : Bytes} (hw : s.Holds w) (hlength : w.length ≤ maxLength)
    (h : a.LiesAt w.length offset l k)
    (hreversed : (s.read w).range k (k + l.width) = bytes.reverse) :
    (a.opposite.load w offset).run s =
      .ok (Word.toInt l.signed l.bits (Word.ofBytes l.order bytes)) s := by
  refine (run_load_eq_ok hw hlength h.opposite).trans ?_
  show EStateM.Result.ok (Word.toInt l.signed l.bits (Word.ofBytes l.order.opposite
    ((s.read w).range k (k + l.width)))) s = _
  rw [hreversed, Word.ofBytes_reverse, ByteOrder.opposite_opposite]

/-- A field of an integer is read as the sum of its digits, if it has no sign, and else as the one
integer in the range around zero that is congruent to it. In every store where the bytes of the
field are reversed, the field with the other byte order is read as the same integer. And where the
field is split, most significant byte first, its integer is that of the upper part, shifted by the
width of the lower one, plus that of the lower one. -/
theorem load_positional (hw : s.Holds w) (hlength : w.length ≤ maxLength)
    (h : a.LiesAt w.length offset l k) :
    ∃ v, (a.load w offset).run s = .ok v s ∧
      (l.signed = false → v = Word.digitSum l.order (s.read w) k l.width) ∧
      (l.signed = true → ∀ n : Int, n = v ↔
        -2 ^ (l.bits - 1) ≤ n ∧ n < 2 ^ (l.bits - 1) ∧
          n ≡ Word.digitSum l.order (s.read w) k l.width [ZMOD 2 ^ l.bits]) ∧
      (∀ t : Store, t.Holds w →
        (t.read w).range k (k + l.width) = ((s.read w).range k (k + l.width)).reverse →
          (a.opposite.load w offset).run t = .ok v t) ∧
      ∀ (b c : Integral Window) (first next : Value Window) (upper lower : Layout),
        l.Splits upper lower → b.LiesAt w.length first upper k →
          c.LiesAt w.length next lower (k + upper.width) →
            ∃ v₁ v₂, (b.load w first).run s = .ok v₁ s ∧ (c.load w next).run s = .ok v₂ s ∧
              v = v₁ * 256 ^ lower.width + v₂ := by
  have hread := Store.length_read hw
  have hroom := h.add_le
  have hsum := Word.ofBytes_range l.order (hroom.trans_eq hread.symm)
  have hlt : Word.digitSum l.order (s.read w) k l.width < 2 ^ l.bits :=
    hsum ▸ Word.ofBytes_range_lt l.order (hroom.trans_eq hread.symm)
  refine ⟨_, run_load_eq_ok hw hlength h, ?_, ?_,
    fun t ht hreversed => run_load_reversed ht hlength h hreversed, ?_⟩
  · intro hsigned
    rw [hsigned, hsum]
    rfl
  · intro hsigned n
    rw [hsigned, hsum]
    exact Word.toInt_eq_iff (Nat.mul_pos (by decide) l.width_pos) hlt
  · intro b c first next upper lower hsplit hupper hlower
    refine ⟨_, _, run_load_eq_ok hw hlength hupper, run_load_eq_ok hw hlength hlower, ?_⟩
    have hend := hlower.add_le
    have hfield : (s.read w).range k (k + l.width) =
        (s.read w).range k (k + upper.width) ++
          (s.read w).range (k + upper.width) (k + upper.width + lower.width) := by
      rw [Bytes.range_append_range _ (by omega) (by omega), hsplit.width, Nat.add_assoc]
    rw [hfield]
    exact hsplit.toInt (Bytes.length_range_add (by omega))

/-- Two bytes with the sign set are read as `-509`, which is `-2` and `3` as two fields. -/
theorem load_positional_negative :
    let s : Store := ⟨[[1, 0xFE, 3, 4]]⟩
    let w : Window := ⟨0, 1, 3⟩
    s.Holds w ∧ w.length ≤ maxLength ∧
      ((Integral.fixed ⟨2, true, .big, by decide, by decide⟩).load w .undefined).run s =
        .ok (-509) s ∧
      ∃ v₁ v₂, ((Integral.fixed ⟨1, true, .big, by decide, by decide⟩).load w .undefined).run s =
          .ok v₁ s ∧
        ((Integral.fixed ⟨1, false, .big, by decide, by decide⟩).load w (.ofInt 1)).run s =
          .ok v₂ s ∧
        -509 = v₁ * 256 + v₂ := by
  intro s w
  let l : Layout := ⟨2, true, .big, by decide, by decide⟩
  let upper : Layout := ⟨1, true, .big, by decide, by decide⟩
  let lower : Layout := ⟨1, false, .big, by decide, by decide⟩
  have hw : s.Holds w := by decide
  have hlength : w.length ≤ maxLength := by decide
  have hnext : StartsAt (.ofInt 1 : Value Window) 1 :=
    .number (@Binary64.hasValue_ofInt 1 (by decide))
  obtain ⟨v, hrun, -, hsigned, -, hsplit⟩ := @load_positional l 0 s w (.fixed l) .undefined hw
    hlength (.fixed (by decide) .missing (by decide))
  obtain rfl : -509 = v := (hsigned rfl (-509)).mpr ⟨by decide, by decide, by decide +kernel⟩
  obtain ⟨v₁, v₂, hfirst, hsecond, hv⟩ :=
    hsplit (.fixed upper) (.fixed lower) .undefined (.ofInt 1) upper lower
      ⟨rfl, ⟨rfl, rfl, rfl⟩, rfl, rfl⟩ (.fixed (by decide) .missing (by decide))
      (.fixed (by decide) hnext (by decide))
  exact ⟨hw, hlength, hrun, v₁, v₂, hfirst, hsecond, hv⟩

end

end Field.Integral

end Octets
