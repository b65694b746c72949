import Octets.Proofs.Alignment
import Octets.Proofs.Surrogate

/-!
# What is found at all

A search without an offset looks through all bytes, forward from the first one and backward from
the end. The two directions begin at different places, pass different tests and scan different
ranges, but they look for the same places at which the needle stands (`Search.Stands`); one gives
the first of them and the other one the last (`Search.searchBytes_whole`). So they find something
together or not at all, and never in the wrong order. And a text is looked for through its bytes, so
that these can stand in its place.

* `Search.searchBytes_whole`: what a search without an offset gives, in both directions;
* `Search.indexOf_presence`: the two directions, the test for presence and the forms of a needle
  agree.
-/

namespace Octets

namespace Search

open Text.Utf16 (unitsOfBytes length_unitsOfBytes)

variable {hay needle : Bytes} {wide : Bool} {d : Direction} {i : Nat}

/-! ## Places -/

/-- A needle that is looked for: it has no more bytes than there are, and in a search for units one
unit at least. -/
structure Passes (length needleLength : Nat) (wide : Bool) : Prop where
  room : needleLength ≤ length
  unit : wide = true → 2 ≤ needleLength

/-- The whole units of the needle stand where a unit begins. A last byte of the needle that is not
part of a unit is not compared, but counts where the needle is too long. -/
structure StandsInUnits (hay needle : Bytes) (i : Nat) : Prop where
  passes : Passes hay.length needle.length true
  even : i % 2 = 0
  occurs : unitsOfBytes needle <+: (unitsOfBytes hay).drop (i / 2)

/-- The needle stands at a place: in units if these are looked for, and else in bytes. An empty
needle stands at all places up to the end. -/
def Stands (hay needle : Bytes) (wide : Bool) (i : Nat) : Prop :=
  if needle = [] then i ≤ hay.length
  else if wide then StandsInUnits hay needle i
  else Occurs hay needle i

/-- There is a first place if and only if there is a last one, and it is not behind that. -/
theorem First.opposite {P : Nat → Prop} {first last : Option Nat}
    (hfirst : First .forward P first) (hlast : First .backward P last) :
    (first = none ↔ last = none) ∧ ∀ i j, first = some i → last = some j → i ≤ j := by
  constructor
  · cases first with
    | none =>
      cases last with
      | none => exact Iff.rfl
      | some j => exact absurd hlast.1 (hfirst j)
    | some i =>
      cases last with
      | none => exact absurd hfirst.1 (hlast i)
      | some j => exact iff_of_false nofun nofun
  · rintro i j rfl rfl
    exact Int.ofNat_le.mp (hfirst.2 j hlast.1)

/-! ## Searches without an offset -/

/-- Without an offset a search forward begins at the first byte, and one backward at the end or at
the last byte, so that all bytes lie ahead. -/
theorem startPosition_whole {length needleLength : Nat} (hlength : (length : Int) ≤ maxInt64)
    (hpos : 0 < needleLength) (hle : needleLength ≤ length) (d : Direction) :
    ∃ start : Nat, startPosition length (offset length d .nan) needleLength d = start ∧
      (d = .forward → start = 0) ∧ ∀ i < length, d.Ahead start i := by
  unfold maxInt64 at hlength
  have hwrap : ∀ n : Int, 0 ≤ n → n ≤ length → wrapped n = n := by
    intro n hn hn'
    exact wrapped_eq_self (by unfold minInt64; omega) (by unfold maxInt64; omega)
  cases d with
  | forward =>
    refine ⟨0, ?_, fun _ => rfl, fun i _ => Int.natCast_nonneg i⟩
    show startPosition length 0 needleLength .forward = 0
    unfold startPosition
    rw [if_neg (by decide), Int.zero_add, hwrap needleLength (by omega) (by omega),
      hwrap length (by omega) (by omega), if_pos (Int.ofNat_le.mpr hle)]
  | backward =>
    show ∃ start : Nat, startPosition length length needleLength .backward = start ∧ _
    unfold startPosition
    rw [if_neg (show ¬(length : Int) < 0 by omega), hwrap length (by omega) (by omega),
      hwrap (length - 1) (by omega) (by omega)]
    -- Where the needle would end may be too large for an integer of 64 bits.
    split
    · exact ⟨length, rfl, nofun, fun i hi => Int.ofNat_le.mpr (Nat.le_of_lt hi)⟩
    · rw [if_neg (Nat.ne_of_gt hpos), if_neg (by decide)]
      refine ⟨length - 1, by omega, nofun, fun i hi => ?_⟩
      show (i : Int) ≤ (length - 1 : Nat)
      omega

/-- An empty needle is found at the place where a search without an offset begins. -/
theorem startPosition_whole_zero {length : Nat} (hlength : (length : Int) ≤ maxInt64)
    (d : Direction) :
    startPosition length (offset length d .nan) 0 d = offset length d .nan := by
  have hwrap : wrapped length = length :=
    wrapped_eq_self (by unfold minInt64; omega) hlength
  cases d with
  | forward =>
    show startPosition length 0 0 .forward = 0
    unfold startPosition
    rw [if_neg (by decide), hwrap]
    exact if_pos (Int.natCast_nonneg length)
  | backward =>
    show startPosition length length 0 .backward = length
    unfold startPosition
    rw [if_neg (by omega), Int.natCast_zero, Int.add_zero, if_pos (Int.le_refl _)]

/-- Nothing is looked for where the needle does not pass the tests in front of the scan. -/
theorem task_of_not_passes {length needleLength : Nat} {wide : Bool} {offset : Int}
    (hpos : 0 < needleLength) (h : ¬Passes length needleLength wide) (d : Direction) :
    task length needleLength offset d wide = .answered none := by
  unfold task
  rw [if_neg (Nat.ne_of_gt hpos)]
  by_cases hlong : length < needleLength
  · simp [hlong]
  cases wide with
  | false => exact absurd ⟨Nat.not_lt.mp hlong, nofun⟩ h
  | true =>
    have hshort : needleLength < 2 :=
      Nat.not_le.mp fun hunit => h ⟨Nat.not_lt.mp hlong, fun _ => hunit⟩
    simp [hshort]

/-- Where it passes them, a search without an offset is a scan that has all bytes ahead of it. -/
theorem task_whole {length needleLength : Nat} {wide : Bool} (hlength : (length : Int) ≤ maxInt64)
    (hpos : 0 < needleLength) (h : Passes length needleLength wide) (d : Direction) :
    ∃ start : Nat, task length needleLength (offset length d .nan) d wide =
        (if wide then .units (start / 2) else .bytes start) ∧
      ∀ i < length, d.Ahead start i := by
  obtain ⟨hle, hunit⟩ := h
  obtain ⟨start, hstart, hfirst, hahead⟩ := startPosition_whole hlength hpos hle d
  have hroom : ¬(length < needleLength ∨ d = .forward ∧ length < start + needleLength) := by
    rintro (hlong | ⟨hd, hlong⟩)
    · omega
    · rw [hfirst hd] at hlong
      omega
  refine ⟨start, ?_, hahead⟩
  unfold task
  rw [if_neg (Nat.ne_of_gt hpos), hstart, if_neg (by omega), Int.toNat_natCast, if_neg hroom]
  cases wide with
  | false => rfl
  | true =>
    have htwo := hunit rfl
    rw [if_pos rfl, if_pos rfl, if_neg (by omega)]

theorem units_ne_nil_of_le (h : 2 ≤ needle.length) : unitsOfBytes needle ≠ [] := by
  have hcount := length_unitsOfBytes needle
  exact List.ne_nil_of_length_pos (by omega)

/-- A scan of units that has all of them ahead gives the first place at which the units of the
needle stand. -/
theorem find_whole_units (h : Passes hay.length needle.length true) {start : Nat}
    (hahead : ∀ i < hay.length, d.Ahead start i) :
    First d (StandsInUnits hay needle)
      ((find (unitsOfBytes hay) (unitsOfBytes needle) (start / 2) d).map (· * 2)) := by
  have hunit := h.unit rfl
  have hne := units_ne_nil_of_le hunit
  have hfirst : First d (fun k => unitsOfBytes needle <+: (unitsOfBytes hay).drop (2 * k / 2))
      (find (unitsOfBytes hay) (unitsOfBytes needle) (start / 2) d) := by
    refine First.congr (fun k => ?_) (find_first hne (start / 2) d)
    rw [Nat.mul_div_cancel_left k (by decide)]
    refine (and_iff_right_of_imp fun hoccurs => ?_).symm
    -- A unit in which the needle stands begins at one of the bytes.
    have hplace := add_length_le hoccurs hne
    rw [length_unitsOfBytes, length_unitsOfBytes] at hplace
    have hbyte := hahead (2 * k) (by omega)
    cases d <;> simp only [Direction.Ahead] at hbyte ⊢ <;> omega
  have hplaces := First.double (P := fun i =>
    unitsOfBytes needle <+: (unitsOfBytes hay).drop (i / 2)) hfirst
  refine First.congr (fun i => ?_) hplaces
  exact ⟨fun hi => ⟨hi.even, hi.occurs⟩, fun hi => ⟨h, hi.1, hi.2⟩⟩

/-- A search without an offset gives the first place in its direction at which the needle
stands. -/
theorem searchBytes_whole (hlength : (hay.length : Int) ≤ maxInt64) (needle : Bytes)
    (d : Direction) (wide : Bool) :
    First d (Stands hay needle wide)
      (searchBytes hay needle (offset hay.length d .nan) d wide) := by
  unfold searchBytes
  by_cases hne : needle = []
  · subst hne
    simp only [task, List.length_nil, if_true, startPosition_whole_zero hlength]
    cases d with
    | forward => exact ⟨Nat.zero_le _, fun j _ => Int.natCast_nonneg j⟩
    | backward => exact ⟨Nat.le_refl _, fun j hj => Int.ofNat_le.mpr hj⟩
  refine First.congr (fun i => iff_of_eq (if_neg hne)) ?_
  have hpos := List.length_pos_iff.mpr hne
  by_cases hpasses : Passes hay.length needle.length wide
  · obtain ⟨start, htask, hahead⟩ := task_whole hlength hpos hpasses d
    rw [htask]
    cases wide with
    | false =>
      refine First.congr (fun i => ?_) (find_first hne start d)
      refine (and_iff_right_of_imp fun hoccurs => hahead i ?_).symm
      have hroom := add_length_le hoccurs hne
      omega
    | true => exact find_whole_units hpasses hahead
  · rw [task_of_not_passes hpos hpasses d]
    intro i hi
    cases wide with
    | false =>
      have hroom := Occurs.add_le hi hne
      exact hpasses ⟨Nat.le_of_add_left_le hroom, fun hwide => absurd hwide Bool.false_ne_true⟩
    | true => exact hpasses hi.passes

/-! ## Texts and their bytes -/

/-- A text is looked for as its bytes are, under every encoding that is known by a name that is not
empty. -/
theorem needle_text_eq {encoding : Operand} {e : Encoding} {text : String} {content : Bytes}
    (hnamed : encoding ≠ .text "") (hknown : encoding? encoding = some e)
    (hcontent : e.encode text = .ok content) :
    Search.needle (.text text) encoding = Search.needle (.bytes content) encoding := by
  have hwide : isWide encoding = (e == .utf16le) := by
    rw [isWide, hknown]
    rfl
  rw [Search.needle, textNeedle, beq_eq_false_iff_ne.mpr hnamed, if_neg Bool.false_ne_true, hknown]
  show (e.encode text).map _ = Except.ok (Needle.mk content (isWide encoding))
  rw [hcontent, hwide]
  rfl

/-! ## Searches in windows -/

variable {s : Store} {w : Window} {position encoding : Value Window}

/-- Searches for two arguments that are the same needle end in the same way. -/
theorem run_indexOf_congr (value value' : Value Window) (hw : s.Holds w)
    (hvalue : ∀ v ∈ value.buffers, s.Holds v) (hvalue' : ∀ v ∈ value'.buffers, s.Holds v)
    (hposition : ∀ v ∈ position.buffers, s.Holds v)
    (hencoding : ∀ v ∈ encoding.buffers, s.Holds v)
    (hneedle : Search.needle (value.map s.read)
        (encodingOf (position.map s.read) (encoding.map s.read)) =
      Search.needle (value'.map s.read)
        (encodingOf (position.map s.read) (encoding.map s.read)))
    (d : Direction) :
    (w.indexOf value position encoding d).run s = (w.indexOf value' position encoding d).run s := by
  rw [w.run_indexOf d hw hvalue hposition hencoding, w.run_indexOf d hw hvalue' hposition hencoding,
    Content.indexOf, Content.indexOf, hneedle]

/-- Without an offset, for every needle that is accepted and every encoding, a search forward finds
something if and only if one backward does and if and only if the bytes include the needle, and it
finds nothing behind what the one backward finds; the length of the window is one that an integer of
64 bits can hold. And for every offset that is not a text, and in both directions, a text is found
where its bytes are, given as such or shown by a window, under every encoding in which it has bytes
and that is known by a name that is not empty. -/
theorem indexOf_presence (hw : s.Holds w) (hlength : (w.length : Int) ≤ maxInt64)
    (hencoding : ∀ v ∈ encoding.buffers, s.Holds v) :
    (∀ (value : Value Window) (n : Needle), (∀ v ∈ value.buffers, s.Holds v) →
      Search.needle (value.map s.read) (encoding.map s.read) = .ok n →
        ∃ first last found,
          (w.indexOf value .undefined encoding .forward).run s = .ok first s ∧
          (w.indexOf value .undefined encoding .backward).run s = .ok last s ∧
          (w.includes value .undefined encoding).run s = .ok found s ∧
          (first = none ↔ last = none) ∧ (last = none ↔ found = false) ∧
          ∀ i j, first = some i → last = some j → i ≤ j) ∧
    ∀ (text : String) (position : Value Window) (d : Direction) (e : Encoding) (content : Bytes),
      position.isText = false → (∀ v ∈ position.buffers, s.Holds v) →
      encoding.map s.read ≠ .text "" → encoding? (encoding.map s.read) = some e →
      e.encode text = .ok content →
        (w.indexOf (.text text) position encoding d).run s =
          (w.indexOf (.bytes content) position encoding d).run s ∧
        ∀ v, s.Holds v → s.read v = content →
          (w.indexOf (.text text) position encoding d).run s =
            (w.indexOf (.buffer v) position encoding d).run s := by
  constructor
  · intro value n hvalue hneedle
    have hread := Store.length_read hw
    have hwhole := fun d => @searchBytes_whole (s.read w) (by rwa [hread]) n.bytes d n.wide
    have hrun : ∀ d, (w.indexOf value .undefined encoding d).run s =
        .ok (searchBytes (s.read w) n.bytes (offset w.length d .nan) d n.wide) s :=
      Window.run_indexOf_eq_ok hw hvalue (List.forall_mem_nil _) hencoding rfl hneedle
    have hincludes : (w.includes value .undefined encoding).run s = .ok (searchBytes (s.read w)
        n.bytes (offset w.length .forward .nan) .forward n.wide).isSome s := by
      rw [Window.includes, EStateM.run_bind, hrun .forward]
      rfl
    rw [hread] at hwhole
    obtain ⟨hboth, horder⟩ := (hwhole .forward).opposite (hwhole .backward)
    refine ⟨_, _, _, hrun .forward, hrun .backward, hincludes, hboth, ?_, horder⟩
    rw [← hboth, Option.isSome_eq_false_iff, Option.isNone_iff_eq_none]
  · intro text position d e content htext hposition hnamed hknown hcontent
    have hname : encodingOf (position.map s.read) (encoding.map s.read) = encoding.map s.read := by
      rw [encodingOf, Value.isText_map, htext, if_neg Bool.false_ne_true]
    have heq := needle_text_eq hnamed hknown hcontent
    rw [← hname] at heq
    have hnone := List.forall_mem_nil s.Holds
    refine ⟨run_indexOf_congr (.text text) (.bytes content) hw hnone hnone hposition hencoding heq
      d, ?_⟩
    rintro v hv rfl
    exact run_indexOf_congr (.text text) (.buffer v) hw hnone (List.forall_mem_singleton.mpr hv)
      hposition hencoding heq d

/-- Three bytes of the window are looked for as the one unit that they hold. It stands at their own
place and at one that is followed by another byte, both inside the window and not at its ends. The
text of this unit, looked for backward from the middle, is found where its bytes are. -/
theorem indexOf_presence_units :
    let s : Store := ⟨[[9, 0x62, 0, 0x61, 0, 0x62, 0, 0x61, 0, 0x63, 0]]⟩
    let w : Window := ⟨0, 1, 10⟩
    let name : Value Window := .text "utf16le"
    (∃ first last found,
      (w.indexOf (.buffer ⟨0, 3, 3⟩) .undefined name .forward).run s = .ok first s ∧
      (w.indexOf (.buffer ⟨0, 3, 3⟩) .undefined name .backward).run s = .ok last s ∧
      (w.includes (.buffer ⟨0, 3, 3⟩) .undefined name).run s = .ok found s ∧
      first = some 2 ∧ last = some 6 ∧ found = true) ∧
    (w.indexOf (.text "a") (.ofInt (-5)) name .backward).run s = .ok (some 2) s ∧
    (w.indexOf (.bytes [0x61, 0]) (.ofInt (-5)) name .backward).run s = .ok (some 2) s ∧
    (w.indexOf (.buffer ⟨0, 7, 2⟩) (.ofInt (-5)) name .backward).run s = .ok (some 2) s := by
  intro s w name
  have hw : s.Holds w := by decide
  have hlength : (w.length : Int) ≤ maxInt64 := by decide
  have hname : ∀ v ∈ name.buffers, s.Holds v := by decide
  have hneedle : Search.needle ((Value.buffer ⟨0, 3, 3⟩).map s.read) (name.map s.read) =
      .ok ⟨[0x61, 0, 0x62], true⟩ := (SpellsWide.buffer (by decide)).needle_eq_ok
  obtain ⟨hagree, hforms⟩ := indexOf_presence hw hlength hname
  constructor
  · obtain ⟨first, last, found, hfirst, hlast, hfound, -, hincluded, -⟩ :=
      hagree (.buffer ⟨0, 3, 3⟩) _ (by decide) hneedle
    have hsearch : ∀ d answer,
        (w.indexOf (.buffer ⟨0, 3, 3⟩) .undefined name d).run s = .ok answer s →
          answer = searchBytes (s.read w) [0x61, 0, 0x62] (offset w.length d .nan) d true := by
      intro d answer hanswer
      have hrun := @Window.run_indexOf_eq_ok s w (.buffer ⟨0, 3, 3⟩) .undefined name _ _ hw
        (by decide) (by decide) hname rfl hneedle d
      exact (EStateM.Result.ok.inj (hanswer.symm.trans hrun)).1
    have htwo : first = some 2 := (hsearch .forward first hfirst).trans (by decide)
    have hsix : last = some 6 := (hsearch .backward last hlast).trans (by decide)
    have htrue : found = true := by
      rw [hsix] at hincluded
      simpa using hincluded
    exact ⟨first, last, found, hfirst, hlast, hfound, htwo, hsix, htrue⟩
  · obtain ⟨hbytes, hshown⟩ := hforms "a" (.ofInt (-5)) .backward .utf16le [0x61, 0] rfl
      (by decide) (by decide) (by decide) (by decide)
    have htext : (w.indexOf (.text "a") (.ofInt (-5)) name .backward).run s =
        .ok (some 2) s := by
      have hoffset : offset w.length .backward (Binary64.ofInt (-5)) = -5 := by decide +kernel
      have hfound : searchBytes (s.read w) [0x61, 0] (-5) .backward true = some 2 := by decide
      rw [@Window.run_indexOf_eq_ok s w (.text "a") (.ofInt (-5)) name _ ⟨[0x61, 0], true⟩ hw
        (by decide) (by decide) hname rfl (SpellsWide.text (by decide) (by decide)).needle_eq_ok,
        hoffset, hfound]
    refine ⟨htext, ?_, ?_⟩
    · rw [← hbytes, htext]
    · rw [← hshown ⟨0, 7, 2⟩ (by decide) (by decide), htext]

end Search

end Octets
