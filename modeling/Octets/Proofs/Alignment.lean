import Octets.Proofs.Occurrence

/-!
# Searches for 16-bit units

In utf16le a needle stands only where a unit begins. A search backward gives the last such place at
or before the one where it begins, and a search forward the first one at or after it, with one
exception: a search forward that begins at the second byte of a unit begins with that unit, and so
finds a needle that stands one byte before where it was asked to begin.

* `Search.OccursAligned`: the needle stands where a unit begins;
* `Search.BeginsInside`: the exception;
* `Search.searchBytes_first`: what a search gives, from the unit on with which it begins;
* `Search.indexOf_aligned`: what a search gives, from the place on where it is asked to begin.
-/

namespace Octets

namespace Search

open Text.Utf16 (unitsOfBytes)

/-! ## What an answer must be -/

/-- The needle stands where a unit begins. -/
def OccursAligned (hay needle : Bytes) (i : Nat) : Prop := i % 2 = 0 ∧ Occurs hay needle i

/-- A search forward is asked to begin at the second byte of unit `k`, with room for the needle
from there on, and the needle stands at the first byte of that unit. -/
structure BeginsInside (hay needle : Bytes) (d : Direction) (p : Int) (k : Nat) : Prop where
  forward : d = .forward
  odd : p = 2 * k + 1
  room : p + needle.length ≤ hay.length
  occurs : Occurs hay needle (2 * k)

/-- The bytes that an argument stands for as a needle under utf16le. -/
inductive SpellsWide (encoding : Operand) : Operand → Bytes → Prop where
  | text {s : String} {content : Bytes} (hname : encoding? encoding = some .utf16le)
      (hcontent : Encoding.utf16le.encode s = .ok content) : SpellsWide encoding (.text s) content
  | bytes {content : Bytes} (hname : encoding? encoding = some .utf16le) :
      SpellsWide encoding (.bytes content) content
  | buffer {content : Bytes} (hname : encoding? encoding = some .utf16le) :
      SpellsWide encoding (.buffer content) content

/-! ## Units -/

variable {hay needle : Bytes} {d : Direction} {p offset : Int} {i k start : Nat}
  {answer : Option Nat}

/-- A needle of whole units stands at a unit if its bytes stand where the unit begins. -/
theorem isPrefix_units_iff (heven : needle.length % 2 = 0) :
    unitsOfBytes needle <+: (unitsOfBytes hay).drop i ↔ Occurs hay needle (2 * i) := by
  rw [← Text.Utf16.unitsOfBytes_drop, Text.Utf16.unitsOfBytes_isPrefix_iff heven, Occurs]

theorem units_ne_nil (hne : needle ≠ []) (heven : needle.length % 2 = 0) :
    unitsOfBytes needle ≠ [] := by
  match needle with
  | [] => exact absurd rfl hne
  | [_] => nomatch heven
  | _ :: _ :: _ => exact List.cons_ne_nil _ _

theorem Direction.ahead_double {i j : Nat} : d.Ahead (2 * i : Nat) (2 * j : Nat) ↔ d.Ahead i j := by
  cases d <;> simp only [Direction.Ahead] <;> omega

/-- The first unit is where the first even place is. -/
theorem First.double {P : Nat → Prop} (h : First d (fun i => P (2 * i)) answer) :
    First d (fun i => i % 2 = 0 ∧ P i) (answer.map (· * 2)) := by
  cases answer with
  | none =>
    rintro i ⟨heven, hi⟩
    obtain ⟨k, rfl⟩ := Nat.dvd_of_mod_eq_zero heven
    exact h k hi
  | some i =>
    obtain ⟨hi, hfirst⟩ := h
    rw [Option.map_some, Nat.mul_comm]
    refine ⟨⟨Nat.mul_mod_right 2 i, hi⟩, ?_⟩
    rintro j ⟨heven, hj⟩
    obtain ⟨k, rfl⟩ := Nat.dvd_of_mod_eq_zero heven
    exact Direction.ahead_double.mpr (hfirst k hj)

/-- The even places ahead of the unit in which a search begins are those ahead of where it begins,
and forward that unit itself if the search begins at its second byte. -/
theorem Direction.ahead_unit_iff :
    d.Ahead (2 * (start / 2) : Nat) (2 * k : Nat) ↔
      d.Ahead start (2 * k : Nat) ∨ d = .forward ∧ start = 2 * k + 1 := by
  cases d <;> simp only [Direction.Ahead] <;> simp <;> omega

/-! ## Searches -/

/-- A scan of units gives the first place at which one begins and the needle stands, from the unit
on in which the scan begins. -/
theorem find_units (hne : needle ≠ []) (heven : needle.length % 2 = 0) (start : Nat)
    (d : Direction) :
    First d (fun i => i % 2 = 0 ∧ d.Ahead (2 * (start / 2) : Nat) i ∧ Occurs hay needle i)
      ((find (unitsOfBytes hay) (unitsOfBytes needle) (start / 2) d).map (· * 2)) := by
  refine First.double (First.congr (fun i => ?_) (find_first (units_ne_nil hne heven) _ d))
  exact and_congr Direction.ahead_double (isPrefix_units_iff heven).symm

/-- A search for units gives the first place ahead, and forward from the second byte of a unit at
which the needle stands that unit. -/
theorem searchBytes_aligned (hlength : hay.length ≤ maxLength)
    (h : Clamped hay.length offset p) (hne : needle ≠ []) (heven : needle.length % 2 = 0)
    (d : Direction) :
    (∀ k, BeginsInside hay needle d p k → searchBytes hay needle offset d true = some (2 * k)) ∧
      ((∀ k, ¬BeginsInside hay needle d p k) →
        First d (fun i => d.Ahead p i ∧ OccursAligned hay needle i)
          (searchBytes hay needle offset d true)) := by
  have hpos := List.length_pos_iff.mpr hne
  have htwo : true = true → 2 ≤ needle.length := fun _ => by omega
  unfold searchBytes
  obtain ⟨htask, hroom⟩ | ⟨start, htask, hahead, hforward⟩ := task_cases hlength h hpos htwo d
  · rw [htask]
    refine ⟨?_, ?_⟩
    · rintro k ⟨rfl, rfl, hfits, -⟩
      -- The place at which the search is asked to begin has room for the needle itself.
      exact absurd (Int.le_refl _) (hroom (2 * k + 1) (by omega))
    · rintro - i ⟨hi, -, hoccurs⟩
      exact hroom i (hoccurs.add_le hne) hi
  · rw [htask, if_pos rfl]
    have hfirst := @find_units hay needle hne heven start d
    refine ⟨?_, ?_⟩
    · rintro k ⟨rfl, rfl, hfits, hoccurs⟩
      have hstart : start / 2 = k := by
        have hmax := (hforward rfl).1
        omega
      rw [hstart] at hfirst ⊢
      refine hfirst.eq_some ⟨Nat.mul_mod_right 2 k, Int.le_refl _, hoccurs⟩ ?_
      rintro j ⟨-, hj, -⟩
      exact hj
    · intro hnot
      refine First.congr (fun i => ?_) hfirst
      rw [OccursAligned, and_left_comm]
      refine and_congr_right fun hi => and_congr_left fun hoccurs => ?_
      obtain ⟨k, rfl⟩ := Nat.dvd_of_mod_eq_zero hi
      rw [hahead (2 * k) (hoccurs.add_le hne), Direction.ahead_unit_iff]
      refine (or_iff_left ?_).symm
      rintro ⟨rfl, rfl⟩
      obtain ⟨hmax, hfits⟩ := hforward rfl
      exact hnot k ⟨rfl, by omega, by omega, hoccurs⟩

/-- What an argument stands for as a needle is what is looked for, in units. -/
theorem SpellsWide.needle_eq_ok {encoding value : Operand} {content : Bytes}
    (h : SpellsWide encoding value content) :
    Search.needle value encoding = .ok ⟨content, true⟩ := by
  cases h with
  | @text s content hname hcontent =>
    have hempty : encoding ≠ .text "" := by
      rintro rfl
      have hutf8 : encoding? (.text "") = some .utf8 := by decide
      rw [hutf8] at hname
      nomatch hname
    rw [needle, textNeedle, beq_eq_false_iff_ne.mpr hempty, if_neg Bool.false_ne_true, hname]
    show (Encoding.utf16le.encode s).map _ = _
    rw [hcontent]
    rfl
  | bytes hname => rw [needle, isWide, hname]; rfl
  | buffer hname => rw [needle, isWide, hname]; rfl

/-! ## Searches in windows -/

variable {s : Store} {w : Window} {value position encoding : Value Window}

/-- A search for units in a window that is not longer than a block may be, for every needle of whole
units, every number in the place of the offset and both directions: it ends in the first place ahead
at which a unit begins and the needle stands, or in that there is none, unless it is asked to begin
at the second byte of a unit at which the needle stands. -/
theorem indexOf_aligned (hw : s.Holds w) (hlength : w.length ≤ maxLength)
    (hvalue : ∀ v ∈ value.buffers, s.Holds v) (hposition : ∀ v ∈ position.buffers, s.Holds v)
    (hencoding : ∀ v ∈ encoding.buffers, s.Holds v) {x : Binary64}
    (hx : number (position.map s.read) = .ok x) {needle : Bytes}
    (hneedle : SpellsWide (encodingOf (position.map s.read) (encoding.map s.read))
      (value.map s.read) needle)
    (hne : needle ≠ []) (heven : needle.length % 2 = 0) (d : Direction) :
    ∃ answer, (w.indexOf value position encoding d).run s = .ok answer s ∧
      (∀ k, BeginsInside (s.read w) needle d (beginning w.length d x) k →
        answer = some (2 * k)) ∧
      ((∀ k, ¬BeginsInside (s.read w) needle d (beginning w.length d x) k) →
        First d (fun i => d.Ahead (beginning w.length d x) i ∧ OccursAligned (s.read w) needle i)
          answer) := by
  have hread : (s.read w).length = w.length := Store.length_read hw
  have hclamped : Clamped (s.read w).length (offset w.length d x) (beginning w.length d x) := by
    rw [hread]
    exact clamped_offset hlength d x
  refine ⟨_, ?_, searchBytes_aligned (by rwa [hread]) hclamped hne heven d⟩
  exact Window.run_indexOf_eq_ok hw hvalue hposition hencoding hx hneedle.needle_eq_ok d

/-- A search backward from the second byte of a unit, among an odd number of bytes, for bytes that
lie behind the window in which they are looked for. -/
theorem indexOf_aligned_backward :
    let s : Store := ⟨[[0, 1, 0, 2, 0, 1, 0]]⟩
    let w : Window := ⟨0, 1, 5⟩
    let x : Binary64 := .ofNat 3
    (w.indexOf (.buffer ⟨0, 5, 2⟩) (.number x) (.text "utf16le") .backward).run s =
        .ok (some 0) s ∧
      beginning 5 .backward x = 3 ∧
      First .backward
        (fun i => Direction.backward.Ahead 3 i ∧ OccursAligned [1, 0, 2, 0, 1] [1, 0] i)
        (some 0) := by
  intro s w x
  have hoffset : offset 5 .backward x = 3 := by decide +kernel
  have hbeginning : beginning 5 .backward x = 3 := by decide +kernel
  have hfound : searchBytes [1, 0, 2, 0, 1] [1, 0] 3 .backward true = some 0 := by decide
  have hrun := @Window.run_indexOf_eq_ok s w (.buffer ⟨0, 5, 2⟩) (.number x) (.text "utf16le") x
    ⟨[1, 0], true⟩ (by decide) (by decide) (by decide) (by decide) rfl
    (SpellsWide.buffer (by decide)).needle_eq_ok .backward
  obtain ⟨answer, hanswer, -, hfirst⟩ := @indexOf_aligned s w (.buffer ⟨0, 5, 2⟩) (.number x)
    (.text "utf16le") (by decide) (by decide) (by decide) (by decide) (by decide) x rfl [1, 0]
    (.buffer (by decide)) (by decide) (by decide) .backward
  have hsome : answer = some 0 := by
    rw [hanswer, hoffset] at hrun
    exact (EStateM.Result.ok.inj hrun).1.trans hfound
  subst hsome
  rw [hbeginning] at hfirst
  exact ⟨hanswer, hbeginning, hfirst fun k hinside => nomatch hinside.forward⟩

/-- A search forward that is asked to begin at the second byte of a unit finds what stands at its
first one, in front of where it begins, though nothing stands behind. -/
theorem indexOf_inside_unit :
    let s : Store := ⟨[[1, 0, 2, 0]]⟩
    let w : Window := ⟨0, 0, 4⟩
    let x : Binary64 := .ofNat 1
    (w.indexOf (.bytes [1, 0]) (.number x) (.text "utf16le") .forward).run s = .ok (some 0) s ∧
      beginning 4 .forward x = 1 ∧
      ¬First .forward (fun i => Direction.forward.Ahead 1 i ∧ OccursAligned [1, 0, 2, 0] [1, 0] i)
        (some 0) := by
  intro s w x
  have hoffset : offset 4 .forward x = 1 := by decide +kernel
  have hfound : searchBytes [1, 0, 2, 0] [1, 0] 1 .forward true = some 0 := by decide
  have hrun := @Window.run_indexOf_eq_ok s w (.bytes [1, 0]) (.number x) (.text "utf16le") x
    ⟨[1, 0], true⟩ (by decide) (by decide) (by decide) (by decide) rfl
    (SpellsWide.bytes (by decide)).needle_eq_ok .forward
  refine ⟨?_, by decide +kernel, ?_⟩
  · rw [hrun, hoffset]
    exact congrArg (EStateM.Result.ok · s) hfound
  · rintro ⟨⟨hahead, -⟩, -⟩
    exact absurd hahead (show ¬(1 : Int) ≤ 0 by decide)

end Search

end Octets
