import Octets.Memory.Comparison
import Octets.Proofs.Access

/-!
# Runs of comparisons

A window has the same bytes as itself, so that the answer for one and the same window is the one
that `Octets.Content.Comparison` gives for the bytes. How two windows lie to each other is of no
matter to it either: they are ordered as their bytes are (`Window.compare_lexicographic`).
-/

namespace Octets.Window

open Octets.Action (outcome run_bind_outcome)
open Store (length_read)
open Value (run_ask)

variable {s : Store} {w other third : Window}

theorem run_compare (hw : s.Holds w) (ho : s.Holds other) :
    (w.compare other).run s = .ok (Bytes.order (s.read w) (s.read other)) s := by
  unfold compare
  split
  · rename_i heq
    subst heq
    simp
  · simp [run_loadPair hw ho]

theorem run_equals (hw : s.Holds w) (ho : s.Holds other) :
    (w.equals other).run s = .ok (Content.equals (s.read w) (s.read other)) s := by
  unfold equals Content.equals
  rw [length_read hw, length_read ho]
  split
  · rename_i heq
    subst heq
    simp
  · split
    · rename_i hlen
      simp [run_compare hw ho, hlen]
    · rename_i hlen
      simp [hlen]

/-! ## The order of windows -/

theorem equals_eq_order (a b : Bytes) : Content.equals a b = (Bytes.order a b == .eq) := by
  unfold Content.equals
  by_cases hab : a = b
  · simp [hab]
  · have hne : Bytes.order a b ≠ .eq := fun heq => hab (Bytes.order_eq_iff.mp heq)
    simp [beq_eq_false_iff_ne.mpr hne]

/-- Windows compare as their bytes do in the lexicographic order, wherever they lie, also where
they are one window or share bytes. The order is the reverse one in the other direction, it goes on
through a third window, and the windows that are the same in it are the equal ones. -/
theorem compare_lexicographic (hw : s.Holds w) (ho : s.Holds other) (ht : s.Holds third) :
    ∃ o, (w.compare other).run s = .ok o s ∧
      (o = .lt ↔ List.Lex (· < ·) (s.read w) (s.read other)) ∧
      (o = .eq ↔ s.read w = s.read other) ∧
      (o = .gt ↔ List.Lex (· < ·) (s.read other) (s.read w)) ∧
      (other.compare w).run s = .ok o.swap s ∧
      (∀ o', (other.compare third).run s = .ok o' s → o ≠ .gt → o' ≠ .gt →
        (w.compare third).run s = .ok (o.then o') s) ∧
      (w.equals other).run s = .ok (o == .eq) s := by
  refine ⟨Bytes.order (s.read w) (s.read other), run_compare hw ho, Bytes.order_lt_iff,
    Bytes.order_eq_iff, Bytes.order_gt_iff, ?_, ?_, ?_⟩
  · rw [run_compare ho hw, Bytes.order_swap]
  · intro o' hrun hfirst hsecond
    rw [run_compare ho ht] at hrun
    obtain rfl := (EStateM.Result.ok.inj hrun).1
    rw [run_compare hw ht, Bytes.order_then hfirst hsecond]
  · rw [run_equals hw ho, equals_eq_order]

/-- A window, a window of another block that goes on behind the same bytes, and one that shares
bytes with the second. -/
theorem compare_lexicographic_overlap :
    let s : Store := ⟨[[1, 2], [1, 2, 3, 1]]⟩
    let a : Window := ⟨0, 0, 2⟩
    let b : Window := ⟨1, 0, 3⟩
    let c : Window := ⟨1, 1, 3⟩
    (a.compare b).run s = .ok .lt s ∧ List.Lex (· < ·) (s.read a) (s.read b) ∧
      (b.compare a).run s = .ok .gt s ∧ (a.compare c).run s = .ok .lt s ∧
      (a.equals b).run s = .ok false s := by
  intro s a b c
  obtain ⟨o, hrun, hlt, -, -, hswap, htrans, hequals⟩ :=
    @compare_lexicographic s a b c (by decide) (by decide) (by decide)
  have hab : (a.compare b).run s = .ok .lt s := rfl
  have hbc : (b.compare c).run s = .ok .lt s := rfl
  obtain rfl : o = .lt := (EStateM.Result.ok.inj (hrun.symm.trans hab)).1
  exact ⟨hab, hlt.mp rfl, hswap, htrans .lt hbc (by decide) (by decide), hequals⟩

/-! ## The order of ranges -/

theorem run_compareRange {targetStart targetStop sourceStart sourceStop : Value Window}
    (hw : s.Holds w) (ho : s.Holds other) (hts : ∀ v ∈ targetStart.buffers, s.Holds v)
    (hte : ∀ v ∈ targetStop.buffers, s.Holds v) (hss : ∀ v ∈ sourceStart.buffers, s.Holds v)
    (hse : ∀ v ∈ sourceStop.buffers, s.Holds v) :
    (w.compareRange other targetStart targetStop sourceStart sourceStop).run s =
      outcome (Content.compareRange (s.read w) (s.read other) (targetStart.map s.read)
        (targetStop.map s.read) (sourceStart.map s.read) (sourceStop.map s.read)) s := by
  simp only [compareRange, Content.compareRange, length_read hw, length_read ho]
  refine run_bind_outcome (run_ask hts _) fun ts _ => ?_
  refine run_bind_outcome (run_ask hte _) fun te _ => ?_
  refine run_bind_outcome (run_ask hss _) fun ss _ => ?_
  refine run_bind_outcome (run_ask hse _) fun se _ => ?_
  split
  · rfl
  · split
    · rfl
    · refine run_bind_outcome rfl fun _ _ => ?_
      refine run_bind_outcome rfl fun _ _ => ?_
      refine run_bind_outcome rfl fun sourceCount _ => ?_
      refine run_bind_outcome rfl fun targetCount _ => ?_
      refine run_bind_outcome rfl fun rest _ => ?_
      rw [EStateM.run_bind, run_loadPair hw ho]
      rfl

end Octets.Window
