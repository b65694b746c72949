import Octets.Proofs.Fill
import Octets.Proofs.Growth
import Octets.Proofs.Positional

/-!
# Swapped groups

A swap reverses the bytes of every group, each once and within its own borders: a byte moves to the
place that lies as far from the end of its group as the byte was from its start
(`Bytes.mirrored`, `Bytes.getElem?_reverseGroups`). Everything else is read off this one place. It
is its own inverse, so that a second swap undoes the first one; a group is reversed as a whole, so
that a field that takes it up is read the same in the other byte order; and two swaps of different
groups move a byte by the two places in turn.

* `Window.run_swap_eq_ok` — what a swap leaves in the store;
* `Window.swap_exchanges` — all of this for every window of a store.
-/

namespace Octets

namespace Bytes

variable {content : Bytes} {k i : Nat}

/-! ## Places in groups -/

/-- The place in the same group of `k` that lies as far from the end of the group as a place does
from its start. -/
def mirrored (k i : Nat) : Nat := i / k * k + (k - 1 - i % k)

/-- The place `i` of the group that begins at `start`. -/
theorem mirrored_add {start : Nat} (hstart : start % k = 0) (hi : i < k) :
    mirrored k (start + i) = start + (k - 1 - i) := by
  obtain ⟨group, rfl⟩ := Nat.dvd_of_mod_eq_zero hstart
  rw [mirrored, Nat.mul_add_div (by omega), Nat.div_eq_of_lt hi, Nat.mul_add_mod,
    Nat.mod_eq_of_lt hi, Nat.add_zero, Nat.mul_comm]

/-- Every place is one of a group. -/
theorem exists_group (hk : 0 < k) (i : Nat) :
    ∃ start j, start % k = 0 ∧ j < k ∧ i = start + j :=
  ⟨k * (i / k), i % k, Nat.mul_mod_right k _, Nat.mod_lt i hk, (Nat.div_add_mod i k).symm⟩

theorem mirrored_mirrored (hk : 0 < k) (i : Nat) : mirrored k (mirrored k i) = i := by
  obtain ⟨start, j, hstart, hj, rfl⟩ := exists_group hk i
  rw [mirrored_add hstart hj, mirrored_add hstart (by omega)]
  omega

/-- Where the groups take up all places, a place has a whole group around it. -/
theorem add_le_of_lt {length start : Nat} (hlength : length % k = 0) (hstart : start % k = 0)
    (h : start < length) : start + k ≤ length := by
  obtain ⟨groups, rfl⟩ := Nat.dvd_of_mod_eq_zero hlength
  obtain ⟨group, rfl⟩ := Nat.dvd_of_mod_eq_zero hstart
  have hnext : group + 1 ≤ groups := Nat.lt_of_mul_lt_mul_left h
  exact Nat.mul_le_mul_left k hnext

theorem mirrored_lt {length : Nat} (hk : 0 < k) (hlength : length % k = 0) (hi : i < length) :
    mirrored k i < length := by
  obtain ⟨start, j, hstart, hj, rfl⟩ := exists_group hk i
  have hgroup := add_le_of_lt hlength hstart (by omega)
  rw [mirrored_add hstart hj]
  omega

/-! ## Reversed groups -/

/-- Where the groups take up all bytes, each byte goes to the mirrored place of its group. -/
theorem getElem?_reverseGroups (hk : 0 < k) (hlength : content.length % k = 0)
    (hi : i < content.length) :
    (content.reverseGroups k)[i]? = content[mirrored k i]? := by
  fun_induction reverseGroups k content generalizing i with
  | case1 content h ih =>
    have hfirst : (content.take k).reverse.length = k := by
      rw [List.length_reverse, List.length_take]
      omega
    by_cases hgroup : i < k
    · -- The byte is one of the first group.
      have hplace : mirrored k (0 + i) = 0 + (k - 1 - i) := mirrored_add (Nat.zero_mod k) hgroup
      rw [Nat.zero_add, Nat.zero_add] at hplace
      rw [hplace, List.getElem?_append_left (by omega),
        List.getElem?_reverse (by rw [List.length_take]; omega), List.length_take,
        Nat.min_eq_left h.2, List.getElem?_take_of_lt (by omega)]
    · -- The groups after it lie one group further on.
      have hrest : (content.drop k).length % k = 0 := by
        rw [List.length_drop, ← Nat.mod_eq_sub_mod h.2]
        exact hlength
      have hplace : mirrored k i = k + mirrored k (i - k) := by
        obtain ⟨start, j, hstart, hj, hsum⟩ := exists_group hk (i - k)
        have hnext : (k + start) % k = 0 := by rw [Nat.add_mod_left, hstart]
        rw [hsum, mirrored_add hstart hj, show i = k + start + j by omega, mirrored_add hnext hj]
        omega
      rw [List.getElem?_append_right (by omega), hfirst, ih hrest (by rw [List.length_drop]; omega),
        List.getElem?_drop, hplace]
  | case2 content h =>
    -- Fewer bytes than a group are none.
    have hshort : content.length < k := by omega
    rw [Nat.mod_eq_of_lt hshort] at hlength
    omega

/-- Reversing the groups again gives the bytes back. -/
theorem reverseGroups_reverseGroups (hk : 0 < k) (hlength : content.length % k = 0) :
    (content.reverseGroups k).reverseGroups k = content := by
  apply List.ext_getElem?
  intro i
  by_cases hi : i < content.length
  · rw [getElem?_reverseGroups hk (by rwa [length_reverseGroups]) (by rwa [length_reverseGroups]),
      getElem?_reverseGroups hk hlength (mirrored_lt hk hlength hi), mirrored_mirrored hk]
  · rw [List.getElem?_eq_none (by simpa using hi), List.getElem?_eq_none (by simpa using hi)]

/-- A group is reversed as a whole. -/
theorem range_reverseGroups (hlength : content.length % k = 0) {start : Nat}
    (hstart : start % k = 0) (h : start + k ≤ content.length) :
    (content.reverseGroups k).range start (start + k) =
      (content.range start (start + k)).reverse := by
  have hcount := length_range_add h
  apply List.ext_getElem?
  intro i
  by_cases hi : i < k
  · rw [getElem?_range _ (by omega),
      getElem?_reverseGroups (by omega) hlength (by omega), mirrored_add hstart hi,
      List.getElem?_reverse (by omega), hcount, getElem?_range _ (by omega)]
  · rw [List.getElem?_eq_none (by rw [length_range, length_reverseGroups]; omega),
      List.getElem?_eq_none (by rw [List.length_reverse]; omega)]

/-- Reversing the groups of four and then those of two exchanges the halves of the groups of four,
and keeps the bytes of each half in order. -/
theorem range_halves (hlength : content.length % 4 = 0) {start : Nat} (hstart : start % 4 = 0)
    (h : start + 4 ≤ content.length) :
    ((content.reverseGroups 4).reverseGroups 2).range start (start + 4) =
      content.range (start + 2) (start + 4) ++ content.range start (start + 2) := by
  have hfours : (content.reverseGroups 4).length = content.length := length_reverseGroups 4 content
  have hsplit : ∀ bytes : Bytes, bytes.range start (start + 2) ++
      bytes.range (start + 2) (start + 4) = bytes.range start (start + 4) := fun bytes =>
    range_append_range bytes (by omega) (by omega)
  -- The group of four is reversed, and with it each half, so that the halves change places.
  have hgroup := range_reverseGroups hlength hstart h
  rw [← hsplit, ← hsplit, List.reverse_append] at hgroup
  obtain ⟨hfirst, hsecond⟩ := List.append_inj hgroup (by
    simp only [List.length_reverse, length_range, hfours]
    omega)
  -- The groups of two are these halves, and are reversed back.
  have htwos : ∀ place, place % 2 = 0 → place + 2 ≤ content.length →
      ((content.reverseGroups 4).reverseGroups 2).range place (place + 2) =
        ((content.reverseGroups 4).range place (place + 2)).reverse := by
    intro place hplace hroom
    exact range_reverseGroups (by omega) hplace (by omega)
  rw [← hsplit, htwos start (by omega) (by omega), htwos (start + 2) (by omega) (by omega), hfirst,
    hsecond, List.reverse_reverse, List.reverse_reverse]

end Bytes

theorem SwapUnit.size_pos (unit : SwapUnit) : 0 < unit.size := by
  cases unit <;> decide

namespace Window

variable {s : Store} {w : Window} {unit : SwapUnit}

/-! ## Swaps in windows -/

/-- A swap of groups that take up the window is the window with every group reversed. -/
theorem run_swap_eq_ok (hw : s.Holds w) (hgroups : w.length % unit.size = 0) :
    (w.swap unit).run s = .ok () (s.write w ((s.read w).reverseGroups unit.size)) := by
  rw [run_swap unit hw, Content.swap, Store.length_read hw, if_pos hgroups]
  rfl

/-- A window that was swapped is still one of the store, and shows the reversed groups. -/
theorem read_swapped (hw : s.Holds w) (unit : SwapUnit) :
    (s.write w ((s.read w).reverseGroups unit.size)).Holds w ∧
      (s.write w ((s.read w).reverseGroups unit.size)).read w =
        (s.read w).reverseGroups unit.size := by
  have hnew : ((s.read w).reverseGroups unit.size).length = w.length := by
    rw [Bytes.length_reverseGroups, Store.length_read hw]
  exact ⟨(Store.Extends.write hw hnew).holds hw, Store.read_write_self hw hnew⟩

/-- In a window that its groups take up, a swap succeeds, and a second one restores the store. In
between, a field that is a group is read as the integer that it is read as before in the other byte
order, whether it holds a number or a big integer, and with a sign or without. Where the window is
one of groups of four bytes, swapping these and then the groups of two exchanges the two halves of
every group of four and keeps the bytes of each half in order. -/
theorem swap_exchanges (hw : s.Holds w) (hlength : w.length ≤ maxLength) :
    (∀ unit : SwapUnit, w.length % unit.size = 0 → ∃ t, (w.swap unit).run s = .ok () t ∧
      (w.swap unit).run t = .ok () s ∧
      ∀ (a : Field.Integral Window) (offset : Value Window) (l : Layout) (k : Nat),
        a.LiesAt w.length offset l k → l.width = unit.size → k % unit.size = 0 →
          ∃ v, (a.load w offset).run s = .ok v s ∧ (a.opposite.load w offset).run t = .ok v t) ∧
    (w.length % 4 = 0 → ∃ t u, (w.swap .bits32).run s = .ok () t ∧
      (w.swap .bits16).run t = .ok () u ∧ ∀ k, k % 4 = 0 → k + 4 ≤ w.length →
        (u.read w).range k (k + 4) =
          (s.read w).range (k + 2) (k + 4) ++ (s.read w).range k (k + 2)) := by
  have hread := Store.length_read hw
  constructor
  · intro unit hgroups
    obtain ⟨ht, htread⟩ := read_swapped hw unit
    refine ⟨_, run_swap_eq_ok hw hgroups, ?_, ?_⟩
    · rw [run_swap_eq_ok ht hgroups, htread,
        Bytes.reverseGroups_reverseGroups unit.size_pos (hread ▸ hgroups),
        Store.write_write hw (by rw [Bytes.length_reverseGroups, hread]) hread, Store.write_read hw]
    · intro a offset l k hlies hwidth hplace
      have hroom := hlies.add_le
      refine ⟨_, Field.Integral.run_load_eq_ok hw hlength hlies,
        Field.Integral.run_load_reversed ht hlength hlies ?_⟩
      rw [htread, hwidth]
      exact Bytes.range_reverseGroups (hread ▸ hgroups) hplace (by omega)
  · intro hfours
    obtain ⟨ht, htread⟩ := read_swapped hw .bits32
    obtain ⟨hu, huread⟩ := read_swapped ht .bits16
    have htwos : w.length % 2 = 0 := by omega
    refine ⟨_, _, run_swap_eq_ok hw hfours, run_swap_eq_ok ht htwos, ?_⟩
    intro k hplace hroom
    rw [huread, htread]
    exact Bytes.range_halves (hread ▸ hfours) hplace (by omega)

/-- A window behind the first byte of its block: a number of two bytes with its sign at byte `2`, a
big integer of all bytes, and the halves of the second group of four. -/
theorem swap_exchanges_behind :
    let s : Store := ⟨[[9, 1, 2, 0xFE, 4, 5, 6, 7, 8]]⟩
    let w : Window := ⟨0, 1, 8⟩
    s.Holds w ∧ w.length ≤ maxLength ∧
      (∃ t v, (w.swap .bits16).run s = .ok () t ∧ (w.swap .bits16).run t = .ok () s ∧
        ((Field.Integral.fixed ⟨2, true, .big, by decide, by decide⟩).load w (.ofInt 2)).run s =
          .ok v s ∧
        ((Field.Integral.fixed ⟨2, true, .little, by decide, by decide⟩).load w (.ofInt 2)).run t =
          .ok v t) ∧
      (∃ t v, (w.swap .bits64).run s = .ok () t ∧ (w.swap .bits64).run t = .ok () s ∧
        ((Field.Integral.big false .little).load w .undefined).run s = .ok v s ∧
        ((Field.Integral.big false .big).load w .undefined).run t = .ok v t) ∧
      ∃ t u, (w.swap .bits32).run s = .ok () t ∧ (w.swap .bits16).run t = .ok () u ∧
        (u.read w).range 4 8 = [7, 8, 5, 6] := by
  intro s w
  have hw : s.Holds w := by decide
  have hlength : w.length ≤ maxLength := by decide
  have hsecond : Argument.StartsAt (.ofInt 2 : Value Window) 2 :=
    .number (@Binary64.hasValue_ofInt 2 (by decide))
  obtain ⟨hswap, hhalves⟩ := swap_exchanges hw hlength
  obtain ⟨t₁, hrun₁, hagain₁, hload₁⟩ := hswap .bits16 (by decide)
  obtain ⟨v₁, hbefore₁, hafter₁⟩ := hload₁
    (.fixed ⟨2, true, .big, by decide, by decide⟩) (.ofInt 2) _ 2
    (.fixed (by decide) hsecond (by decide)) rfl (by decide)
  obtain ⟨t₂, hrun₂, hagain₂, hload₂⟩ := hswap .bits64 (by decide)
  obtain ⟨v₂, hbefore₂, hafter₂⟩ := hload₂ (.big false .little) .undefined _ 0
    (.big .missing (by decide)) rfl (by decide)
  obtain ⟨t, u, hfours, htwos, hexchanged⟩ := hhalves (by decide)
  exact ⟨hw, hlength, ⟨t₁, v₁, hrun₁, hagain₁, hbefore₁, hafter₁⟩,
    ⟨t₂, v₂, hrun₂, hagain₂, hbefore₂, hafter₂⟩,
    t, u, hfours, htwos, hexchanged 4 (by decide) (by decide)⟩

end Window

end Octets
