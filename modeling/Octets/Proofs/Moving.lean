import Octets.Proofs.Copy
import Octets.Proofs.SmallNumber

/-!
# What a copy moves

A copy takes bytes from one window to another, as many as the source has behind its start and the
target has room for, and as if all were taken out before any is put in its place. Its positions are
integers of any size (`Content.Points`): whole numbers as they are, everything else coerced. They
are kept in 64 bits, which may change a position but not its order among the positions in a block,
and nothing else is asked about them (`Content.Points.exists_copyPosition`).

* `Content.copy_eq_ok` — what is moved between positions that are let pass;
* `Content.copy_eq_error_iff` — which positions are refused;
* `Window.copy_clamped` — both together, byte for byte in the store.
-/

namespace Octets

open Argument (maxSafe)

namespace Content

variable {source target : Bytes} {v targetStart sourceStart sourceStop : Operand} {default n : Int}

/-! ## Positions -/

/-- The integer that a position of a copy stands for. -/
inductive Points (default : Int) : Operand → Int → Prop where
  | missing : Points default .undefined default
  /-- A whole number as it is, however great it is. -/
  | whole {x : Binary64} {n : Int} (hx : x.HasValue n) : Points default (.number x) n
  /-- Everything else coerced and rounded toward negative infinity. -/
  | floor {v : Operand} {x : Binary64} (hgiven : v.isUndefined = false)
    (hwhole : ∀ y, v = .number y → y.isWhole = false) (hx : v.toNumber = .ok x)
    (hnumber : x.isNaN = false) (hsafe : x.magnitude ≤ maxSafe * Binary64.one) :
    Points default v x.floor
  /-- Zero where this gives no number, or one that is infinite or too great. -/
  | zero {v : Operand} {x : Binary64} (hgiven : v.isUndefined = false)
    (hwhole : ∀ y, v = .number y → y.isWhole = false) (hx : v.toNumber = .ok x)
    (hbeyond : x.isNaN = true ∨ maxSafe * Binary64.one < x.magnitude) : Points default v 0

/-- What is neither missing nor a whole number is coerced. -/
theorem copyPosition_eq_integerOr (hgiven : v.isUndefined = false)
    (hwhole : ∀ y, v = .number y → y.isWhole = false) :
    copyPosition v default = Argument.integerOr v 0 := by
  cases v with
  | undefined => cases hgiven
  | number x => rw [copyPosition, hwhole x rfl, if_neg Bool.false_ne_true]
  | _ => rfl

/-- A position is kept in 64 bits. It is then the integer that it stands for, unless both are on the
same side of all positions in a block. -/
theorem Points.exists_copyPosition (h : Points default v n) :
    ∃ m, copyPosition v default = .ok m ∧
      (m = n ∨ m < 0 ∧ n < 0 ∨ (maxLength : Int) < m ∧ (maxLength : Int) < n) := by
  cases h with
  | missing => exact ⟨default, rfl, .inl rfl⟩
  | @whole x n hx =>
    refine ⟨max minInt64 (min maxInt64 n), ?_, ?_⟩
    · rw [copyPosition, if_pos hx.isWhole, hx.truncClamped]
    · unfold minInt64 maxInt64 maxLength
      omega
  | @floor _ x hgiven hwhole hx hnumber hsafe =>
    refine ⟨x.floor, ?_, .inl rfl⟩
    rw [copyPosition_eq_integerOr hgiven hwhole, Argument.integerOr, hgiven, hx, ok_bind, hnumber,
      decide_eq_false (Nat.not_lt.mpr hsafe)]
    rfl
  | @zero _ x hgiven hwhole hx hbeyond =>
    have hdefault : (x.isNaN || decide (maxSafe * Binary64.one < x.magnitude)) = true := by
      rwa [Bool.or_eq_true, decide_eq_true_eq]
    refine ⟨0, ?_, .inl rfl⟩
    rw [copyPosition_eq_integerOr hgiven hwhole, Argument.integerOr, hgiven, hx, ok_bind, hdefault]
    rfl

/-- A position stands for an integer, unless it cannot be coerced. -/
theorem exists_points (v : Operand) (default : Int) :
    (∃ f, v.toNumber = .error f) ∨ ∃ n, Points default v n := by
  by_cases hgiven : v.isUndefined = true
  · cases v with
    | undefined => exact .inr ⟨default, .missing⟩
    | _ => cases hgiven
  · rw [Bool.not_eq_true] at hgiven
    cases hx : v.toNumber with
    | error f => exact .inl ⟨f, rfl⟩
    | ok x =>
      by_cases hwhole : ∀ y, v = .number y → y.isWhole = false
      · by_cases hbeyond : x.isNaN = true ∨ maxSafe * Binary64.one < x.magnitude
        · exact .inr ⟨0, .zero hgiven hwhole hx hbeyond⟩
        · rw [not_or, Bool.not_eq_true, Nat.not_lt] at hbeyond
          exact .inr ⟨_, .floor hgiven hwhole hx hbeyond.1 hbeyond.2⟩
      · simp only [not_forall, Bool.not_eq_false] at hwhole
        obtain ⟨y, rfl, hy⟩ := hwhole
        exact .inr ⟨_, .whole (.of_isWhole hy)⟩

/-- A position that cannot be coerced is refused. -/
theorem copyPosition_eq_error {f : Fault} (h : v.toNumber = .error f) :
    copyPosition v default = .error f := by
  cases v with
  | undefined => cases h
  | number x => cases h
  | _ =>
    rw [copyPosition_eq_integerOr rfl (by simp), Argument.integerOr, h]
    rfl

/-! ## What is moved -/

/-- What the positions of a copy are that is not refused. -/
theorem positions_of_copy_eq_ok {result : Bytes × Nat}
    (h : copy source target targetStart sourceStart sourceStop = .ok result) :
    ∃ ts ss se, copyPosition targetStart 0 = .ok ts ∧ copyPosition sourceStart 0 = .ok ss ∧
      copyPosition sourceStop source.length = .ok se ∧ 0 ≤ ts ∧ 0 ≤ ss ∧
      ss ≤ source.length ∧ 0 ≤ se := by
  simp only [copy, bind_eq_ok, refuse_eq_ok_iff, not_or, Int.not_lt] at h
  obtain ⟨ts, hts, -, hts', ss, hss, -, hss', se, hse, -, hse', -⟩ := h
  exact ⟨ts, ss, se, hts, hss, hse, hts', hss'.1, hss'.2, hse'⟩

/-- Between positions that are let pass, as many bytes are moved as there are and fit. -/
theorem copy_eq_ok {ts ss se : Nat} (hsource : source.length ≤ maxLength)
    (htarget : target.length ≤ maxLength) (hts : Points 0 targetStart ts)
    (hss : Points 0 sourceStart ss) (hse : Points source.length sourceStop se)
    (hle : ss ≤ source.length) :
    copy source target targetStart sourceStart sourceStop =
      .ok (target.overwrite ts (source.range ss
          (ss + min (min se source.length - ss) (target.length - ts))),
        min (min se source.length - ss) (target.length - ts)) := by
  obtain ⟨place, hplace, hkept⟩ := hts.exists_copyPosition
  obtain ⟨start, hstart, hkept'⟩ := hss.exists_copyPosition
  obtain ⟨stop, hstop, hkept''⟩ := hse.exists_copyPosition
  simp only [copy, hplace, hstart, hstop, ok_bind]
  rw [refuse_eq_ok (by omega), refuse_eq_ok (by omega), refuse_eq_ok (by omega)]
  simp only [ok_bind]
  split
  · -- Nothing is there or fits.
    have hnone : min (min se source.length - ss) (target.length - ts) = 0 := by omega
    rw [hnone, Bytes.range_eq_nil source (Nat.add_zero ss).le, Bytes.overwrite_nil]
    rfl
  · have hts' : place.toNat = ts := by omega
    have hss' : start.toNat = ss := by omega
    have hse' : (min stop source.length).toNat = min se source.length := by omega
    have hend : min (min se source.length) (ss + (target.length - ts)) =
        ss + min (min se source.length - ss) (target.length - ts) := by omega
    rw [hts', hss', hse']
    refine congrArg Except.ok (Prod.ext ?_ ?_)
    · rw [copyRange_eq_overwrite (by omega), hend]
    · rw [length_copied, Nat.min_assoc, Nat.min_self]

/-- A copy is refused if and only if a position cannot be coerced, or stands for an integer below
zero, or that of the source start for one behind the end. -/
theorem copy_eq_error_iff (hsource : source.length ≤ maxLength)
    (htarget : target.length ≤ maxLength) :
    (∃ f, copy source target targetStart sourceStart sourceStop = .error f) ↔
      (∃ v ∈ [targetStart, sourceStart, sourceStop], ∃ f, v.toNumber = .error f) ∨
      ∃ ts ss se, Points 0 targetStart ts ∧ Points 0 sourceStart ss ∧
        Points source.length sourceStop se ∧
        (ts < 0 ∨ ss < 0 ∨ (source.length : Int) < ss ∨ se < 0) := by
  constructor
  · intro h
    obtain ⟨f, h⟩ := h
    obtain ⟨f, hf⟩ | ⟨ts, hts⟩ := exists_points targetStart 0
    · exact .inl ⟨_, by simp, f, hf⟩
    obtain ⟨f, hf⟩ | ⟨ss, hss⟩ := exists_points sourceStart 0
    · exact .inl ⟨_, by simp, f, hf⟩
    obtain ⟨f, hf⟩ | ⟨se, hse⟩ := exists_points sourceStop source.length
    · exact .inl ⟨_, by simp, f, hf⟩
    refine .inr ⟨ts, ss, se, hts, hss, hse, ?_⟩
    -- Otherwise the three are counts, and there would be a result.
    by_contra hcounts
    obtain ⟨ts, rfl⟩ := Int.eq_ofNat_of_zero_le (show 0 ≤ ts by omega)
    obtain ⟨ss, rfl⟩ := Int.eq_ofNat_of_zero_le (show 0 ≤ ss by omega)
    obtain ⟨se, rfl⟩ := Int.eq_ofNat_of_zero_le (show 0 ≤ se by omega)
    rw [copy_eq_ok hsource htarget hts hss hse (by omega)] at h
    cases h
  · intro h
    cases hcopy : copy source target targetStart sourceStart sourceStop with
    | error f => exact ⟨f, rfl⟩
    | ok result =>
      obtain ⟨ts, ss, se, hts, hss, hse, hcounts⟩ := positions_of_copy_eq_ok hcopy
      obtain ⟨v, hv, f, hf⟩ | ⟨ts', ss', se', hts', hss', hse', houtside⟩ := h
      · simp only [List.mem_cons, List.not_mem_nil, or_false] at hv
        rcases hv with rfl | rfl | rfl
        · cases (copyPosition_eq_error hf).symm.trans hts
        · cases (copyPosition_eq_error hf).symm.trans hss
        · cases (copyPosition_eq_error hf).symm.trans hse
      · obtain ⟨place, hplace, hkept⟩ := hts'.exists_copyPosition
        obtain ⟨start, hstart, hkept'⟩ := hss'.exists_copyPosition
        obtain ⟨stop, hstop, hkept''⟩ := hse'.exists_copyPosition
        obtain rfl := Except.ok.inj (hplace.symm.trans hts)
        obtain rfl := Except.ok.inj (hstart.symm.trans hss)
        obtain rfl := Except.ok.inj (hstop.symm.trans hse)
        omega

end Content

namespace Store

variable {s t : Store} {w target : Window}

/-- The store after bytes of one window were moved to another is the one with the bytes that stood
there before. -/
theorem eq_write_range_iff (hw : s.Holds w) (ht : s.Holds target) {place start count : Nat}
    (hsource : start + count ≤ w.length) (hplace : count ≠ 0 → place + count ≤ target.length) :
    t = s.write target ((s.read target).overwrite place
        ((s.read w).range start (start + count))) ↔
      t.blocks.length = s.blocks.length ∧ ∀ id i : Nat, (t.block id)[i]? =
        if id = target.block ∧ target.offset + place ≤ i ∧ i < target.offset + place + count then
          (s.block w.block)[w.offset + start + (i - (target.offset + place))]?
        else (s.block id)[i]? := by
  have hlength : ((s.read w).range start (start + count)).length = count :=
    Bytes.length_range_add (by rwa [length_read hw])
  have hmoved : ∀ j < count, ((s.read w).range start (start + count))[j]? =
      (s.block w.block)[w.offset + start + j]? := by
    intro j hj
    rw [Bytes.getElem?_range _ (by omega), Window.getElem?_read s (by omega), Nat.add_assoc]
  exact eq_write_overwrite_iff ht hlength hplace hmoved

end Store

namespace Window

variable {s : Store} {w target : Window} {targetStart sourceStart sourceStop : Value Window}

/-- A copy fails if and only if a position cannot be coerced, or stands for an integer below zero,
or that of the source start for one behind the end of the source, and then nothing changes. Else it
answers how many bytes it has moved, which are as many as the source has from its start to the end
that is given, and the target has room for, if any. So many bytes of the target are those that stood
in the source before, whether or not the two share bytes, and every other byte of every block is
what it was. -/
theorem copy_clamped (hw : s.Holds w) (ht : s.Holds target) (hsource : w.length ≤ maxLength)
    (htarget : target.length ≤ maxLength) (hts : ∀ v ∈ targetStart.buffers, s.Holds v)
    (hss : ∀ v ∈ sourceStart.buffers, s.Holds v) (hse : ∀ v ∈ sourceStop.buffers, s.Holds v) :
    ((∃ stop t, (w.copy target targetStart sourceStart sourceStop).run s = .error stop t) ↔
      (∃ v ∈ [targetStart, sourceStart, sourceStop], ∃ f, (v.map s.read).toNumber = .error f) ∨
      ∃ ts ss se, Content.Points 0 (targetStart.map s.read) ts ∧
        Content.Points 0 (sourceStart.map s.read) ss ∧
        Content.Points w.length (sourceStop.map s.read) se ∧
        (ts < 0 ∨ ss < 0 ∨ (w.length : Int) < ss ∨ se < 0)) ∧
    (∀ stop t, (w.copy target targetStart sourceStart sourceStop).run s = .error stop t →
      t = s ∧ ∃ f, stop = .fault f) ∧
    ∀ ts ss se : Nat, Content.Points 0 (targetStart.map s.read) ts →
      Content.Points 0 (sourceStart.map s.read) ss →
      Content.Points w.length (sourceStop.map s.read) se → ss ≤ w.length →
      ∃ n t, (w.copy target targetStart sourceStart sourceStop).run s = .ok n t ∧
        (n : Int) = max 0 (min (min se w.length - ss : Int) (target.length - ts)) ∧
        t.blocks.length = s.blocks.length ∧ ∀ id i : Nat, (t.block id)[i]? =
          if id = target.block ∧ target.offset + ts ≤ i ∧ i < target.offset + ts + n then
            (s.block w.block)[w.offset + ss + (i - (target.offset + ts))]?
          else (s.block id)[i]? := by
  have hwread := Store.length_read hw
  have htread := Store.length_read ht
  have herror := @Content.copy_eq_error_iff (s.read w) (s.read target) (targetStart.map s.read)
    (sourceStart.map s.read) (sourceStop.map s.read) (hwread.trans_le hsource)
    (htread.trans_le htarget)
  rw [run_copy hw ht hts hss hse]
  have hcoerced : (∃ v ∈ [targetStart, sourceStart, sourceStop],
        ∃ f, (v.map s.read).toNumber = .error f) ↔
      ∃ v ∈ [targetStart.map s.read, sourceStart.map s.read, sourceStop.map s.read],
        ∃ f, v.toNumber = .error f := by simp
  rw [hwread] at herror
  simp only [Store.settle_liftM_eq_error_iff]
  refine ⟨?_, ?_, ?_⟩
  · rw [hcoerced, ← herror]
    constructor
    · intro h
      obtain ⟨stop, t, -, f, hf, -⟩ := h
      exact ⟨f, hf⟩
    · intro h
      obtain ⟨f, hf⟩ := h
      exact ⟨.fault f, s, rfl, f, hf, rfl⟩
  · intro stop t h
    obtain ⟨ht, f, -, hstop⟩ := h
    exact ⟨ht, f, hstop⟩
  · intro ts ss se hts' hss' hse' hle
    rw [← hwread] at hse' hle
    have hcopy := Content.copy_eq_ok (hwread.trans_le hsource) (htread.trans_le htarget) hts' hss'
      hse' hle
    rw [hcopy, liftM_ok, Store.settle_ok, hwread, htread]
    rw [hwread] at hle
    refine ⟨_, _, rfl, by omega, ?_⟩
    exact (Store.eq_write_range_iff hw ht (by omega) (by omega)).mp rfl

/-- A window is copied into one that overlaps it, to a place given by a text with a fraction, behind
which there is no room for its last byte. A start below zero is refused. -/
theorem copy_clamped_overlap :
    let s : Store := ⟨[[1, 2, 3, 4, 5, 6, 7]]⟩
    let t : Store := ⟨[[1, 2, 3, 1, 2, 3, 4]]⟩
    let w : Window := ⟨0, 0, 5⟩
    let target : Window := ⟨0, 2, 5⟩
    (w.copy target (.text "1.5") .undefined .undefined).run s = .ok 4 t ∧
      ∃ stop t, (w.copy target .undefined (.ofInt (-1)) .undefined).run s = .error stop t := by
  intro s t w target
  have hw : s.Holds w := by decide
  have ht : s.Holds target := by decide
  have hnone : ∀ v ∈ ([] : List Window), s.Holds v := by simp
  have hstop : Content.Points w.length .undefined (5 : Nat) := .missing
  constructor
  · have hfloor : (Binary64.ofText "1.5").floor = (1 : Nat) := by decide +kernel
    have hplace : Content.Points 0 (.text "1.5") (1 : Nat) :=
      hfloor ▸ .floor rfl (by simp) rfl (by decide +kernel) (by decide +kernel)
    obtain ⟨n, t', hrun, hn, hlength, hbytes⟩ :=
      (@copy_clamped s w target (.text "1.5") .undefined .undefined hw ht (by decide) (by decide)
        hnone hnone hnone).2.2 1 0 5 hplace .missing hstop (by decide)
    obtain rfl : n = 4 := by
      have hw' : w.length = 5 := rfl
      have ht' : target.length = 5 := rfl
      omega
    rw [hrun, (Store.eq_write_range_iff hw ht (by decide) (by decide)).mpr ⟨hlength, hbytes⟩]
    rfl
  · refine (@copy_clamped s w target .undefined (.ofInt (-1)) .undefined hw ht (by decide)
      (by decide) hnone hnone hnone).1.mpr (.inr ⟨0, -1, 5, .missing, ?_, hstop, by decide⟩)
    exact .whole (Binary64.hasValue_ofInt (by decide))

end Window

end Octets
