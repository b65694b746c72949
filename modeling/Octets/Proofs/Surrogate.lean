import Octets.Encoding
import Octets.Proofs.Unicode

/-!
# Surrogates in damaged UTF-16

Reading UTF-16 looks one unit ahead, and replaces each surrogate that is not half of a pair. When
the text is written again, every unit is at its place: the units of a pair and of a character are
the same, and an unpaired surrogate has become U+FFFD. Which surrogates are unpaired can be said of
every place on its own (`Unpaired`), because the second half of a pair begins no pair.

* `getElem?_units_ofUnits` — what stands at every place.
* `Encoding.utf16le_keeps_units` — the same of bytes, and which bytes are written as they were read.
-/

namespace Octets

namespace Text.Utf16

/-! ## Places of units -/

/-- The unit at a place of a byte sequence: two bytes, the lower one first. -/
def unitAt? (bytes : Bytes) (i : Nat) : Option UInt16 := do
  let low ← bytes[2 * i]?
  let high ← bytes[2 * i + 1]?
  return UInt16.ofNat (low.toNat + 256 * high.toNat)

/-- The unit at a place is a surrogate and not half of a pair: a high one with no low one behind it,
or a low one with no high one in front of it. -/
def Unpaired (unit : Nat → Option UInt16) (i : Nat) : Prop :=
  ((unit i).any isHigh ∧ ¬(unit (i + 1)).any isLow) ∨
    ((unit i).any isLow ∧ ¬(0 < i ∧ (unit (i - 1)).any isHigh))

instance (unit : Nat → Option UInt16) (i : Nat) : Decidable (Unpaired unit i) :=
  inferInstanceAs (Decidable (_ ∨ _))

theorem getElem?_unitsOfBytes (bytes : Bytes) (i : Nat) :
    (unitsOfBytes bytes)[i]? = unitAt? bytes i := by
  fun_induction unitsOfBytes bytes generalizing i with
  | case1 low high rest ih =>
    cases i with
    | zero => rfl
    | succ i =>
      rw [List.getElem?_cons_succ, ih]
      rfl
  | case2 bytes hshort =>
    match bytes with
    | [] => rfl
    | [_] => cases i <;> rfl
    | low :: high :: rest => exact absurd rfl (hshort low high rest)

/-- There is one unit for every two bytes. -/
theorem length_unitsOfBytes (bytes : Bytes) : (unitsOfBytes bytes).length = bytes.length / 2 := by
  fun_induction unitsOfBytes bytes with
  | case1 low high rest ih =>
    simp only [List.length_cons, ih]
    omega
  | case2 bytes hshort =>
    match bytes with
    | [] => rfl
    | [_] => simp
    | low :: high :: rest => exact absurd rfl (hshort low high rest)

/-! ## Units of characters that are read -/

/-- A unit is not the first half of one pair and the second half of another. -/
theorem isLow_of_isHigh {u : UInt16} (h : isHigh u = true) : isLow u = false := by
  rw [← Bool.not_eq_true, isLow_iff]
  rw [isHigh_iff] at h
  omega

/-- The character of a pair is written as the pair. -/
theorem charUnits_joined {u v : UInt16} (hu : isHigh u = true) (hv : isLow v = true) :
    charUnits (joined u v) = [u, v] := by
  rw [isHigh_iff] at hu
  rw [isLow_iff] at hv
  have hchar : (joined u v).toNat =
      0x10000 + (u.toNat - 0xD800) * 1024 + (v.toNat - 0xDC00) := toNat_ofNat (by omega)
  have hhigh : 0xD800 + ((joined u v).toNat - 0x10000) / 1024 = u.toNat := by omega
  have hlow : 0xDC00 + ((joined u v).toNat - 0x10000) % 1024 = v.toNat := by omega
  rw [charUnits, if_neg (by omega), hhigh, hlow, UInt16.ofNat_toNat, UInt16.ofNat_toNat]

/-- A unit that is read alone is written as itself, or as U+FFFD where it is a surrogate. -/
theorem charUnits_single (u : UInt16) :
    charUnits (single u) = [if isHigh u = true ∨ isLow u = true then 0xFFFD else u] := by
  have hu := u.toNat_lt
  unfold single
  by_cases h : isHigh u = true ∨ isLow u = true
  · rw [if_pos (by simpa using h), if_pos h]
    rfl
  · rw [if_neg (by simpa using h), if_neg h]
    rw [isHigh_iff, isLow_iff] at h
    have hchar : (Char.ofNat u.toNat).toNat = u.toNat := toNat_ofNat (by omega)
    rw [charUnits, hchar, if_pos (by omega), UInt16.ofNat_toNat]

/-! ## Places of unpaired surrogates -/

/-- Behind another unit, a surrogate is unpaired as it would be at the beginning, unless the two are
a pair. -/
theorem unpaired_cons {u : UInt16} {units : List UInt16} {i : Nat}
    (h : i = 0 → ¬(isHigh u = true ∧ units[0]?.any isLow = true)) :
    Unpaired ((u :: units)[·]?) (i + 1) ↔ Unpaired (units[·]?) i := by
  cases i with
  | zero =>
    have hpair := h rfl
    simp only [Unpaired, List.getElem?_cons_succ, List.getElem?_cons_zero, Nat.add_sub_cancel,
      Option.any_some, Nat.zero_lt_succ, Nat.lt_irrefl, true_and, false_and, not_false_iff,
      and_true]
    tauto
  | succ i =>
    simp only [Unpaired, List.getElem?_cons_succ, Nat.add_sub_cancel, Nat.zero_lt_succ, true_and]

/-- A unit at the beginning is unpaired if it is a surrogate that does not begin a pair. -/
theorem unpaired_zero {u : UInt16} {units : List UInt16} :
    Unpaired ((u :: units)[·]?) 0 ↔
      (isHigh u = true ∧ ¬units[0]?.any isLow = true) ∨ isLow u = true := by
  simp only [Unpaired, List.getElem?_cons_succ, List.getElem?_cons_zero, Option.any_some,
    Nat.lt_irrefl, false_and, not_false_iff, and_true]

/-- Neither half of a pair is unpaired, and behind the pair it is as if the pair were not there. -/
theorem unpaired_pair {u v : UInt16} (hu : isHigh u = true) (hv : isLow v = true)
    (rest : List UInt16) :
    ¬Unpaired ((u :: v :: rest)[·]?) 0 ∧ ¬Unpaired ((u :: v :: rest)[·]?) 1 ∧
      ∀ i, Unpaired ((u :: v :: rest)[·]?) (i + 2) ↔ Unpaired (rest[·]?) i := by
  have hulow := isLow_of_isHigh hu
  have hvhigh : ¬isHigh v = true := by
    intro hhigh
    rw [isLow_of_isHigh hhigh] at hv
    exact absurd hv (by decide)
  refine ⟨?_, ?_, fun i => ?_⟩
  · simp [unpaired_zero, hulow, hv]
  · simp [Unpaired, hu, hvhigh]
  · exact (unpaired_cons (by simp)).trans (unpaired_cons fun _ hpair => hvhigh hpair.1)

/-- When the text of units is written again, an unpaired surrogate has become U+FFFD, and every
other unit is the same. -/
theorem getElem?_units_ofUnits (us : List UInt16) (i : Nat) :
    (units (ofUnits us))[i]? =
      us[i]?.map fun u => if Unpaired (us[·]?) i then 0xFFFD else u := by
  fun_induction ofUnits us generalizing i with
  | case1 => rfl
  | case2 u =>
    rw [units_cons, charUnits_single]
    cases i with
    | zero => simp [unpaired_zero]
    | succ i => rfl
  | case3 u v rest h ih =>
    obtain ⟨hu, hv⟩ := Bool.and_eq_true_iff.mp h
    obtain ⟨hfirst, hsecond, hshift⟩ := unpaired_pair hu hv rest
    rw [units_cons, charUnits_joined hu hv]
    -- The two units of the pair, and then those behind it.
    match i with
    | 0 => simp [hfirst]
    | 1 => simp [hsecond]
    | i + 2 => simpa [hshift] using ih i
  | case4 u v rest h ih =>
    have hpair : ¬(isHigh u = true ∧ (v :: rest)[0]?.any isLow = true) := by
      simpa using h
    rw [units_cons, charUnits_single]
    cases i with
    | zero =>
      have hunpaired : Unpaired ((u :: v :: rest)[·]?) 0 ↔ isHigh u = true ∨ isLow u = true := by
        rw [unpaired_zero]
        tauto
      simp [hunpaired]
    | succ i =>
      have hshift : Unpaired ((u :: v :: rest)[·]?) (i + 1) ↔ Unpaired ((v :: rest)[·]?) i :=
        unpaired_cons fun _ => hpair
      simpa [hshift] using ih i

/-- There are as many units as before. -/
theorem length_units_ofUnits (us : List UInt16) : (units (ofUnits us)).length = us.length := by
  have hnone : ∀ i, (units (ofUnits us)).length ≤ i ↔ us.length ≤ i := by
    intro i
    rw [← List.getElem?_eq_none_iff, ← List.getElem?_eq_none_iff, getElem?_units_ofUnits,
      Option.map_eq_none_iff]
  exact Nat.le_antisymm ((hnone _).mpr (Nat.le_refl _)) ((hnone _).mp (Nat.le_refl _))

/-! ## Bytes -/

/-- What is written again has two bytes for each unit that was read. -/
theorem length_encode_decode (bytes : Bytes) :
    (encode (decode bytes)).length = bytes.length / 2 * 2 := by
  rw [length_encode, unitLength, decode, length_units_ofUnits, length_unitsOfBytes, Nat.mul_comm]

theorem unitAt?_encode_decode (bytes : Bytes) (i : Nat) :
    unitAt? (encode (decode bytes)) i =
      (unitAt? bytes i).map fun u => if Unpaired (unitAt? bytes) i then 0xFFFD else u := by
  have hunits : unitAt? bytes = ((unitsOfBytes bytes)[·]?) :=
    funext fun i => (getElem?_unitsOfBytes bytes i).symm
  rw [← getElem?_unitsOfBytes, encode, unitsOfBytes_unitBytes, decode, getElem?_units_ofUnits,
    hunits]

/-- Bytes that have the same units and no odd one are the same. -/
theorem eq_of_unitAt? {a b : Bytes} (ha : a.length % 2 = 0) (hb : b.length % 2 = 0)
    (h : ∀ i, unitAt? a i = unitAt? b i) : a = b := by
  have hunits : unitsOfBytes a = unitsOfBytes b := by
    apply List.ext_getElem?
    intro i
    rw [getElem?_unitsOfBytes, getElem?_unitsOfBytes, h]
  have hab : a <+: b := (unitsOfBytes_isPrefix_iff ha).mp (hunits ▸ List.prefix_refl _)
  have hba : b <+: a := (unitsOfBytes_isPrefix_iff hb).mp (hunits ▸ List.prefix_refl _)
  exact hab.eq_of_length_le hba.length_le

/-- An unpaired surrogate is a unit, and not U+FFFD. -/
theorem exists_of_unpaired {unit : Nat → Option UInt16} {i : Nat} (h : Unpaired unit i) :
    ∃ u, unit i = some u ∧ u ≠ 0xFFFD := by
  have hsurrogate : (unit i).any isHigh = true ∨ (unit i).any isLow = true :=
    h.imp And.left And.left
  rcases hsurrogate with h | h
  · obtain ⟨u, hu, hhigh⟩ := (Option.any_eq_true _ _).mp h
    refine ⟨u, hu, ?_⟩
    rintro rfl
    exact absurd hhigh (by decide)
  · obtain ⟨u, hu, hlow⟩ := (Option.any_eq_true _ _).mp h
    refine ⟨u, hu, ?_⟩
    rintro rfl
    exact absurd hlow (by decide)

/-- What is written again is what was read if and only if there is no odd byte and no unpaired
surrogate. -/
theorem encode_decode_eq_iff {bytes : Bytes} :
    encode (decode bytes) = bytes ↔
      bytes.length % 2 = 0 ∧ ∀ i, ¬Unpaired (unitAt? bytes) i := by
  have hlength := length_encode_decode bytes
  constructor
  · intro h
    refine ⟨by rw [h] at hlength; omega, fun i hi => ?_⟩
    obtain ⟨u, hu, hne⟩ := exists_of_unpaired hi
    have hunit := unitAt?_encode_decode bytes i
    rw [h, hu, Option.map_some, if_pos hi] at hunit
    exact hne (Option.some.inj hunit)
  · rintro ⟨heven, hpaired⟩
    refine eq_of_unitAt? (by omega) heven fun i => ?_
    simp [unitAt?_encode_decode, hpaired i]

end Text.Utf16

namespace Encoding

open Text.Utf16 (unitAt? Unpaired)

/-- Bytes that are read as UTF-16 and written again keep every unit at its place, except that an
unpaired surrogate becomes U+FFFD and an odd last byte is lost. So they are the same bytes if and
only if there is no odd byte and all surrogates are paired. -/
theorem utf16le_keeps_units (bytes : Bytes) :
    ∃ new, encode .utf16le (decode .utf16le bytes) = .ok new ∧
      new.length = bytes.length / 2 * 2 ∧
      (∀ i, unitAt? new i =
        (unitAt? bytes i).map fun u => if Unpaired (unitAt? bytes) i then 0xFFFD else u) ∧
      (new = bytes ↔ bytes.length % 2 = 0 ∧ ∀ i, ¬Unpaired (unitAt? bytes) i) := by
  have hnew : encode .utf16le (decode .utf16le bytes) =
      .ok (Text.Utf16.encode (Text.Utf16.decode bytes)) := by
    simp only [encode, decode, String.toList_ofList]
  exact ⟨_, hnew, Text.Utf16.length_encode_decode bytes, Text.Utf16.unitAt?_encode_decode bytes,
    Text.Utf16.encode_decode_eq_iff⟩

/-- The second of two high surrogates begins a pair; the byte at the end is lost. -/
example : encode .utf16le (decode .utf16le [0x3D, 0xD8, 0x3D, 0xD8, 0x00, 0xDE, 0x41]) =
    .ok [0xFD, 0xFF, 0x3D, 0xD8, 0x00, 0xDE] := rfl

end Encoding

end Octets
