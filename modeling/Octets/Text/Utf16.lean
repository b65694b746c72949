import Octets.Bytes
import Octets.Text.Utf8

/-!
# UTF-16, least significant byte first

A character is one 16-bit unit, or a high and a low surrogate. Decoding keeps every unit that is
a character or half of a pair, and gives U+FFFD for each surrogate that stands alone. A last odd
byte is no unit and is dropped.
-/

namespace Octets.Text.Utf16

/-! ## Units -/

/-- The units of a character. -/
def charUnits (c : Char) : List UInt16 :=
  if c.toNat < 0x10000 then [UInt16.ofNat c.toNat]
  else [UInt16.ofNat (0xD800 + (c.toNat - 0x10000) / 1024),
    UInt16.ofNat (0xDC00 + (c.toNat - 0x10000) % 1024)]

/-- The units of a text. -/
def units (text : List Char) : List UInt16 := text.flatMap charUnits

theorem units_cons (c : Char) (text : List Char) : units (c :: text) = charUnits c ++ units text :=
  rfl

/-- A character has one unit or two. -/
theorem charUnits_cases (c : Char) : (∃ u, charUnits c = [u]) ∨ ∃ u v, charUnits c = [u, v] := by
  unfold charUnits
  split
  · exact .inl ⟨_, rfl⟩
  · exact .inr ⟨_, _, rfl⟩

/-- Only the empty text has no units. -/
theorem units_eq_nil_iff {text : List Char} : units text = [] ↔ text = [] := by
  cases text with
  | nil => exact ⟨fun _ => rfl, fun _ => rfl⟩
  | cons c rest =>
    rcases charUnits_cases c with ⟨u, hunits⟩ | ⟨u, v, hunits⟩ <;> simp [units_cons, hunits]

/-- A text of one unit is one character, whose number the unit is. -/
theorem exists_of_units_eq_singleton {text : List Char} {u : UInt16} (h : units text = [u]) :
    ∃ c, text = [c] ∧ u.toNat = c.toNat := by
  cases text with
  | nil => nomatch h
  | cons c rest =>
    rw [units_cons] at h
    unfold charUnits at h
    split at h
    · rename_i hbasic
      rw [List.cons_append, List.nil_append, List.cons_eq_cons, units_eq_nil_iff] at h
      obtain ⟨rfl, rfl⟩ := h
      exact ⟨c, rfl, UInt16.toNat_ofNat_of_lt' hbasic⟩
    · nomatch h

/-- The first half of a pair. -/
def isHigh (u : UInt16) : Bool := decide (0xD800 ≤ u ∧ u < 0xDC00)

/-- The second half of a pair. -/
def isLow (u : UInt16) : Bool := decide (0xDC00 ≤ u ∧ u < 0xE000)

/-- The character of a pair. -/
def joined (high low : UInt16) : Char :=
  Char.ofNat (0x10000 + (high.toNat - 0xD800) * 1024 + (low.toNat - 0xDC00))

/-- The character of a unit that is not half of a pair. -/
def single (u : UInt16) : Char :=
  if isHigh u || isLow u then Utf8.replacement else Char.ofNat u.toNat

/-- The text of a sequence of units. -/
def ofUnits : List UInt16 → List Char
  | [] => []
  | [u] => [single u]
  | u :: v :: rest =>
    if isHigh u && isLow v then joined u v :: ofUnits rest
    else single u :: ofUnits (v :: rest)

/-! ## Bytes -/

/-- The two bytes of a unit. -/
def unitBytes (u : UInt16) : Bytes :=
  [UInt8.ofNat (u.toNat % 256), UInt8.ofNat (u.toNat / 256)]

/-- The units of a byte sequence; a last odd byte is dropped. -/
def unitsOfBytes : Bytes → List UInt16
  | low :: high :: rest => UInt16.ofNat (low.toNat + 256 * high.toNat) :: unitsOfBytes rest
  | _ => []

/-- The bytes of units are read as those units. -/
theorem unitsOfBytes_unitBytes (units : List UInt16) :
    unitsOfBytes (units.flatMap unitBytes) = units := by
  induction units with
  | nil => rfl
  | cons u rest ih =>
    have hu := u.toNat_lt
    simp only [List.flatMap_cons, unitBytes, List.cons_append, List.nil_append, unitsOfBytes, ih]
    rw [UInt8.toNat_ofNat_of_lt' (Nat.mod_lt _ (by decide)),
      UInt8.toNat_ofNat_of_lt' (show u.toNat / 256 < 256 by omega), Nat.mod_add_div,
      UInt16.ofNat_toNat]

/-- The place of a unit is half the place of its first byte. -/
theorem unitsOfBytes_drop (bytes : Bytes) (i : Nat) :
    unitsOfBytes (bytes.drop (2 * i)) = (unitsOfBytes bytes).drop i := by
  induction i generalizing bytes with
  | zero => rfl
  | succ i ih =>
    match bytes with
    | [] => simp [unitsOfBytes]
    | [_] => simp [unitsOfBytes, Nat.mul_succ]
    | low :: high :: rest => exact ih rest

/-- Units are the same only if both of their bytes are. -/
theorem unit_eq_iff {low high low' high' : UInt8} :
    UInt16.ofNat (low.toNat + 256 * high.toNat) = UInt16.ofNat (low'.toNat + 256 * high'.toNat) ↔
      low = low' ∧ high = high' := by
  have hlow := low.toNat_lt
  have hhigh := high.toNat_lt
  have hlow' := low'.toNat_lt
  have hhigh' := high'.toNat_lt
  rw [← UInt16.toNat_inj, UInt16.toNat_ofNat_of_lt' (by simp only [UInt16.size]; omega),
    UInt16.toNat_ofNat_of_lt' (by simp only [UInt16.size]; omega), ← UInt8.toNat_inj,
    ← UInt8.toNat_inj]
  omega

/-- Whole units stand at the beginning of the units of a byte sequence if their bytes do. -/
theorem unitsOfBytes_isPrefix_iff {content bytes : Bytes} (heven : content.length % 2 = 0) :
    unitsOfBytes content <+: unitsOfBytes bytes ↔ content <+: bytes := by
  induction content using unitsOfBytes.induct generalizing bytes with
  | case1 low high rest ih =>
    match bytes with
    | [] => simp [unitsOfBytes]
    | [_] => simp [unitsOfBytes]
    | low' :: high' :: rest' =>
      have hrest : rest.length % 2 = 0 := (Nat.add_mod_right rest.length 2).symm.trans heven
      rw [unitsOfBytes, unitsOfBytes, List.cons_prefix_cons, List.cons_prefix_cons,
        List.cons_prefix_cons, unit_eq_iff, ih hrest, and_assoc]
  | case2 content hshort =>
    match content with
    | [] => simp [unitsOfBytes]
    | [_] => simp at heven
    | low :: high :: rest => exact absurd rfl (hshort low high rest)

/-- The bytes of a text. -/
def encode (text : List Char) : Bytes := (units text).flatMap unitBytes

/-- The text of a byte sequence. -/
def decode (bytes : Bytes) : List Char := ofUnits (unitsOfBytes bytes)

/-- The number of units of a text. -/
def unitLength (text : List Char) : Nat := (units text).length

@[simp] theorem length_encode (text : List Char) :
    (encode text).length = 2 * unitLength text := by
  unfold encode unitLength
  induction units text with
  | nil => rfl
  | cons u rest ih => simp [unitBytes, ih]; omega

end Octets.Text.Utf16
