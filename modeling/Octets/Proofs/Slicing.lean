import Octets.Proofs.Construction
import Octets.Proofs.Position

/-!
# Parts of parts

A part of a window is made in two steps, each with a clamp of its own: the arguments are moved into
the window as numbers, and the places that they give once more as integers. The sum of the first
step is rounded, but all that is not exact in it lies outside of the window, so that both clamps are
the same one (`Argument.relativeIndex_truncated`), and the second step changes nothing.

A part then shows a range of the bytes, and lies in its window. Both are kept from part to part, so
that after any number of parts, each taken of the one before, what is shown is the range of the
range, and so on, of the bytes of the window.

* `Argument.relativePlace`: the place that an argument asks for;
* `Cut.part`: the bytes between two such places;
* `Window.run_subarray_eq_ok`: what one part is;
* `Window.run_cut_eq_ok`: what is left after any number of cuts;
* `Window.cut_composes`: the parts of parts, and parts between integers.
-/

namespace Octets

/-! ## Places -/

namespace Argument

variable {length default : Nat} {x : Binary64} {v : Operand}

/-- The place among `length` that an argument asks for: the default where it is missing, the first
one where it is not a number, and else the integer that its number is when it is rounded toward
zero, counted from the end where it is negative, and moved to the nearer end where it is outside. -/
def relativePlace (length default : Nat) (v : Operand) : Nat :=
  match v, v.toNumber with
  | .undefined, _ => default
  -- A big integer has no number, and no part is made with it.
  | _, .error _ => 0
  | _, .ok x =>
    if x.isNaN then 0
    else (max 0 (min (length : Int) (if x.trunc < 0 then length + x.trunc else x.trunc))).toNat

theorem clampIndex_eq (length : Nat) (i : Int) :
    clampIndex length i = (max 0 (min (length : Int) (if i < 0 then length + i else i))).toNat := by
  unfold clampIndex
  split <;> omega

/-- A place inside is not moved. -/
theorem clampIndex_eq_self {place : Nat} (h : place ≤ length) :
    clampIndex length place = place := by
  rw [clampIndex, if_neg (by omega)]
  omega

/-- The number of the bytes of a block is exact. -/
theorem hasValue_count (hlength : length ≤ maxLength) : (Binary64.ofNat length).HasValue length :=
  Binary64.hasValue_ofInt (small_of_le_maxLength hlength)

/-- The sum of a count and a negative integer is exact where it is above zero. -/
theorem toNatural_count_add {i : Int} (hlength : length ≤ maxLength) (hx : x.HasValue i)
    (hneg : i < 0) : ((Binary64.ofNat length).add x).toNatural = (length + i).toNat := by
  have hmax : maxLength = 2147483647 := rfl
  rw [(hasValue_count hlength).add hx]
  by_cases hpos : 0 < length + i
  · obtain ⟨k, hk⟩ := Int.eq_ofNat_of_zero_le (Int.le_of_lt hpos)
    have hsum : (Binary64.ofNat k).HasValue k := hasValue_count (by omega)
    rw [if_neg (Int.ne_of_gt hpos), hk, Int.toNat_natCast]
    exact hsum.toNatural (by omega)
  · have hle := Int.not_lt.mp hpos
    rw [Int.toNat_of_nonpos hle]
    split
    · exact Binary64.toNatural_eq_zero (Int.le_of_eq (Binary64.scaled_zero _))
    · exact Binary64.toNatural_eq_zero (Binary64.scaled_ofInt_nonpos hle)

theorem relativeIndex_eq (x : Binary64) (length : Nat) :
    relativeIndex x length =
      (if x.lt (.zero false) then (Binary64.ofNat length).add x
        else if x.lt (.ofNat length) then x else .ofNat length).toNatural :=
  rfl

/-- A number of an integer value is moved as the integer is. -/
theorem relativeIndex_of_hasValue {i : Int} (hlength : length ≤ maxLength) (hx : x.HasValue i) :
    relativeIndex x length = clampIndex length i := by
  have hmax : maxLength = 2147483647 := rfl
  have hcount := hasValue_count hlength
  rw [relativeIndex_eq]
  unfold clampIndex
  simp only [hx.lt_iff (Binary64.hasValue_zero false), hx.lt_iff hcount]
  by_cases hneg : i < 0
  · rw [if_pos hneg, if_pos hneg, toNatural_count_add hlength hx hneg]
  rw [if_neg hneg, if_neg hneg]
  by_cases hinside : i < length
  · obtain ⟨k, rfl⟩ := Int.eq_ofNat_of_zero_le (Int.not_lt.mp hneg)
    rw [if_pos hinside, hx.toNatural (by omega)]
    omega
  · rw [if_neg hinside, hcount.toNatural (by omega)]
    omega

/-- An infinity is moved to the end on its side. -/
theorem relativeIndex_infinity (hlength : length ≤ maxLength) (negative : Bool) :
    relativeIndex (.infinity negative) length =
      clampIndex length (Binary64.infinity negative).trunc := by
  have hmax : maxLength = 2147483647 := rfl
  have hcount := hasValue_count hlength
  rw [relativeIndex_eq]
  unfold clampIndex
  cases negative with
  | true =>
    have hbelow : (Binary64.infinity true).lt (.zero false) = true := by decide +kernel
    have hfar : (Binary64.infinity true).trunc < -(maxLength : Int) := by decide +kernel
    have hsum : (Binary64.ofNat length).add (.infinity true) = .infinity true := by
      rw [Binary64.add, Binary64.isNaN_ofNat, Binary64.isInfinite_of_isFinite hcount.1]
      rfl
    rw [if_pos hbelow, hsum, Binary64.toNatural_eq_zero (by decide +kernel), if_pos (by omega)]
    omega
  | false =>
    have hnonneg : (Binary64.infinity false).lt (.zero false) = false := by decide +kernel
    have hfar : (maxLength : Int) < (Binary64.infinity false).trunc := by decide +kernel
    have hbeyond : (Binary64.infinity false).lt (.ofNat length) = false := by
      by_contra h
      simp only [Binary64.lt, Bool.not_eq_false, Bool.and_eq_true, decide_eq_true_eq] at h
      rw [hcount.2] at h
      have hle := Binary64.trunc_le (Int.le_of_lt h.2)
      omega
    rw [hnonneg, hbeyond, if_neg Bool.false_ne_true, if_neg Bool.false_ne_true,
      hcount.toNatural (by omega), if_neg (by omega)]
    omega

/-- Moving a number into a window and moving its integer there is the same. -/
theorem relativeIndex_truncated (hlength : length ≤ maxLength) (hx : x.isNaN = false) :
    relativeIndex x.truncated length = clampIndex length x.trunc := by
  by_cases hfinite : x.isFinite = true
  · exact relativeIndex_of_hasValue hlength (Binary64.hasValue_truncated hfinite)
  · rw [Binary64.truncated, if_neg hfinite, Binary64.eq_infinity hx hfinite]
    exact relativeIndex_infinity hlength x.negative

/-- The place that an argument asks for is the one that is worked with. -/
theorem relativeOffset_eq_ok (hlength : length ≤ maxLength) (hv : v.toNumber = .ok x)
    (default : Nat) :
    relativeOffset v length default = .ok (relativePlace length default v) := by
  have hplace : relativeOffset v length default = .ok (if v.isUndefined then default
      else if x.isNaN then 0 else clampIndex length x.trunc) := by
    unfold relativeOffset
    rw [hv]
    cases v.isUndefined with
    | true => rfl
    | false =>
      cases hnan : x.isNaN with
      | true => simp [Except.map, hnan]
      | false => simp [Except.map, hnan, relativeIndex_truncated hlength hnan]
  rw [hplace, clampIndex_eq]
  cases v <;> simp only [relativePlace, hv] <;> rfl

theorem relativePlace_le (hdefault : default ≤ length) (v : Operand) :
    relativePlace length default v ≤ length := by
  unfold relativePlace
  split
  · exact hdefault
  · exact Nat.zero_le length
  · split <;> omega

theorem relativePlace_number (hx : x.isNaN = false) (length default : Nat) :
    relativePlace length default (.number x) = clampIndex length x.trunc := by
  rw [clampIndex_eq]
  exact if_neg (by rw [hx]; exact Bool.false_ne_true)

theorem relativePlace_ofInt {i : Int} (h : i.natAbs ≤ 2 ^ 53) (length default : Nat) :
    relativePlace length default (.ofInt i) = clampIndex length i := by
  rw [Value.ofInt, relativePlace_number (Binary64.isNaN_ofInt i),
    (Binary64.hasValue_ofInt_of_le h).trunc]

end Argument

/-! ## Cuts -/

/-- The two ends of a part, as arguments. -/
structure Cut (ω : Type) where
  start : Value ω
  stop : Value ω

namespace Cut

def map {ω ω' : Type} (f : ω → ω') (c : Cut ω) : Cut ω' := ⟨c.start.map f, c.stop.map f⟩

/-- The bytes between the two ends: from the first byte on where the start is missing, up to the end
where the stop is, and none where the stop does not lie behind the start. -/
def part (c : Cut Bytes) (content : Bytes) : Bytes :=
  content.range (Argument.relativePlace content.length 0 c.start)
    (Argument.relativePlace content.length content.length c.stop)

/-- Both ends can be taken for numbers, and buffers among them lie in the store. -/
structure Coerces (s : Store) (c : Cut Window) : Prop where
  holdsStart : ∀ v ∈ c.start.buffers, s.Holds v
  holdsStop : ∀ v ∈ c.stop.buffers, s.Holds v
  start : ∃ x, (c.start.map s.read).toNumber = .ok x
  stop : ∃ x, (c.stop.map s.read).toNumber = .ok x

end Cut

namespace Window

variable {s : Store} {w inner middle outer : Window} {c : Cut Window}

/-! ## Nested windows -/

/-- The one window lies inside the other one. -/
structure Within (inner outer : Window) : Prop where
  block_eq : inner.block = outer.block
  offset_le : outer.offset ≤ inner.offset
  stop_le : inner.offset + inner.length ≤ outer.offset + outer.length

theorem Within.refl (w : Window) : w.Within w := ⟨rfl, Nat.le_refl _, Nat.le_refl _⟩

theorem Within.trans (h : inner.Within middle) (h' : middle.Within outer) :
    inner.Within outer where
  block_eq := h.block_eq.trans h'.block_eq
  offset_le := Nat.le_trans h'.offset_le h.offset_le
  stop_le := Nat.le_trans h.stop_le h'.stop_le

theorem Within.length_le (h : inner.Within outer) : inner.length ≤ outer.length := by
  obtain ⟨-, hoffset, hstop⟩ := h
  omega

/-- A byte of the inner window is the one of the outer window that lies behind it by the difference
of the offsets. -/
theorem Within.getElem?_read (h : inner.Within outer) (s : Store) {i : Nat}
    (hi : i < inner.length) :
    (s.read inner)[i]? = (s.read outer)[i + (inner.offset - outer.offset)]? := by
  obtain ⟨hblock, hoffset, hstop⟩ := h
  rw [Window.getElem?_read s hi, Window.getElem?_read s (by omega), hblock]
  congr 1
  omega

theorem within_slice (w : Window) (start stop : Int) : (w.slice start stop).Within w :=
  ⟨rfl, (w.slice_within start stop).1, (w.slice_within start stop).2⟩

/-- A part between two places shows the bytes between them. -/
theorem read_slice (s : Store) {first last : Nat} (hfirst : first ≤ w.length)
    (hlast : last ≤ w.length) : s.read (w.slice first last) = (s.read w).range first last := by
  simp only [Store.read, slice, Argument.clampIndex_eq_self hfirst,
    Argument.clampIndex_eq_self hlast, Bytes.range_range]
  by_cases hle : first ≤ last
  · congr 1
    omega
  · rw [Bytes.range_eq_nil _ (by omega), Bytes.range_eq_nil _ (by omega)]

/-! ## One part and many -/

/-- The part of a window that is left after cuts, one after the other. -/
def cut (w : Window) (cuts : List (Cut Window)) : Action Store Window :=
  cuts.foldlM (fun w c => w.subarray c.start c.stop) w

theorem cut_append (w : Window) (cuts more : List (Cut Window)) :
    w.cut (cuts ++ more) = w.cut cuts >>= fun v => v.cut more :=
  List.foldlM_append

/-- A part of a window is the one between the places that the arguments ask for. -/
theorem run_subarray (hlength : w.length ≤ maxLength) (hc : c.Coerces s) :
    (w.subarray c.start c.stop).run s =
      .ok (w.slice (Argument.relativePlace w.length 0 (c.start.map s.read))
        (Argument.relativePlace w.length w.length (c.stop.map s.read))) s := by
  obtain ⟨hholdsStart, hholdsStop, ⟨x, hx⟩, ⟨y, hy⟩⟩ := hc
  have hstart := Value.run_ask hholdsStart (Argument.relativeOffset · w.length 0)
  have hstop := Value.run_ask hholdsStop (Argument.relativeOffset · w.length w.length)
  rw [Argument.relativeOffset_eq_ok hlength hx] at hstart
  rw [Argument.relativeOffset_eq_ok hlength hy] at hstop
  rw [subarray, EStateM.run_bind, hstart]
  show (c.stop.ask _ >>= _).run s = _
  rw [EStateM.run_bind, hstop]
  show (liftM (w.aliased _ _) : Action Store Window).run s = _
  rw [aliased_eq_ok]
  rfl

theorem run_subarray_eq_ok (hw : s.Holds w) (hlength : w.length ≤ maxLength)
    (hc : c.Coerces s) :
    ∃ v, (w.subarray c.start c.stop).run s = .ok v s ∧ s.Holds v ∧ v.Within w ∧
      s.read v = (c.map s.read).part (s.read w) := by
  refine ⟨_, run_subarray hlength hc, holds_slice hw _ _, within_slice w _ _, ?_⟩
  rw [read_slice s (Argument.relativePlace_le (Nat.zero_le _) _)
    (Argument.relativePlace_le (Nat.le_refl _) _), Cut.part, Store.length_read hw]
  rfl

/-- The part between two integers that are numbers is the one between these numbers. -/
theorem run_subarray_ofInt (s : Store) (hlength : w.length ≤ maxLength) {a b : Int}
    (ha : a.natAbs ≤ 2 ^ 53) (hb : b.natAbs ≤ 2 ^ 53) :
    (w.subarray (.ofInt a) (.ofInt b)).run s = .ok (w.slice a b) s := by
  have hnone := List.forall_mem_nil s.Holds
  rw [run_subarray (c := ⟨.ofInt a, .ofInt b⟩) hlength ⟨hnone, hnone, ⟨_, rfl⟩, ⟨_, rfl⟩⟩]
  show EStateM.Result.ok (w.slice (Argument.relativePlace w.length 0 (.ofInt a))
    (Argument.relativePlace w.length w.length (.ofInt b))) s = _
  rw [Argument.relativePlace_ofInt ha, Argument.relativePlace_ofInt hb]
  simp only [slice, Argument.clampIndex_eq_self (Argument.clampIndex_le _ _)]

/-- What is left after cuts lies in the window and shows what the cuts leave of its bytes. -/
theorem run_cut_eq_ok (hw : s.Holds w) (hlength : w.length ≤ maxLength)
    {cuts : List (Cut Window)} (hcuts : ∀ c ∈ cuts, c.Coerces s) :
    ∃ v, (w.cut cuts).run s = .ok v s ∧ s.Holds v ∧ v.Within w ∧
      s.read v = (cuts.map (Cut.map s.read)).foldl (fun content c => c.part content)
        (s.read w) := by
  induction cuts generalizing w with
  | nil => exact ⟨w, rfl, hw, .refl w, rfl⟩
  | cons c rest ih =>
    -- The rest is cut out of the first part, which is not longer than the window.
    obtain ⟨hfirst, hrest⟩ := List.forall_mem_cons.mp hcuts
    obtain ⟨v, hrun, hv, hwithin, hread⟩ := run_subarray_eq_ok hw hlength hfirst
    obtain ⟨u, hruns, hu, hnested, hshown⟩ :=
      ih hv (Nat.le_trans hwithin.length_le hlength) hrest
    refine ⟨u, ?_, hu, hnested.trans hwithin, ?_⟩
    · rw [cut, List.foldlM_cons, EStateM.run_bind, hrun]
      exact hruns
    · rw [hshown, hread]
      rfl

/-- A window that is not longer than a block may be is cut any number of times, by arguments that
can be taken for numbers. What is left shows what the same cuts leave of the bytes of the window. It
lies in what was left after the first of the cuts, for any number of them, and a byte of it is the
one there that lies behind it by the difference of the offsets. And the part between two integers
that are numbers is the one between the numbers. -/
theorem cut_composes (hw : s.Holds w) (hlength : w.length ≤ maxLength) :
    (∀ cuts more : List (Cut Window), (∀ c ∈ cuts ++ more, c.Coerces s) →
      ∃ outer inner, (w.cut cuts).run s = .ok outer s ∧
        (w.cut (cuts ++ more)).run s = .ok inner s ∧
        s.read inner = ((cuts ++ more).map (Cut.map s.read)).foldl
          (fun content c => c.part content) (s.read w) ∧
        inner.Within outer ∧
        ∀ i < inner.length,
          (s.read inner)[i]? = (s.read outer)[i + (inner.offset - outer.offset)]?) ∧
    ∀ a b : Int, a.natAbs ≤ 2 ^ 53 → b.natAbs ≤ 2 ^ 53 →
      ∃ v, (w.subarray (.ofInt a) (.ofInt b)).run s = .ok v s ∧ w.aliased a b = .ok v := by
  constructor
  · intro cuts more hcuts
    obtain ⟨hfirst, hmore⟩ := List.forall_mem_append.mp hcuts
    obtain ⟨outer, hrun, houter, hwithin, hread⟩ := run_cut_eq_ok hw hlength hfirst
    obtain ⟨inner, hruns, -, hnested, hshown⟩ :=
      run_cut_eq_ok houter (Nat.le_trans hwithin.length_le hlength) hmore
    refine ⟨outer, inner, hrun, ?_, ?_, hnested, fun i hi => hnested.getElem?_read s hi⟩
    · rw [cut_append, EStateM.run_bind, hrun]
      exact hruns
    · rw [hshown, hread, List.map_append, List.foldl_append]
  · intro a b ha hb
    exact ⟨w.slice a b, run_subarray_ofInt s hlength ha hb, aliased_eq_ok w a b⟩

/-- A part from the integer part of a text on, of it the part from an infinity to the last byte, and
the part from the last but one byte to the greatest of the integers up to which all are numbers. -/
theorem cut_composes_text :
    let s : Store := ⟨[[9, 1, 2, 3, 4, 5, 6]]⟩
    let w : Window := ⟨0, 1, 6⟩
    let first : Cut Window := ⟨.text "1.9", .undefined⟩
    let second : Cut Window := ⟨.number (.infinity true), .ofInt (-1)⟩
    s.Holds w ∧ w.length ≤ maxLength ∧ first.Coerces s ∧ second.Coerces s ∧
      (∃ outer inner, (w.cut [first]).run s = .ok outer s ∧
        (w.cut [first, second]).run s = .ok inner s ∧ s.read inner = [2, 3, 4, 5] ∧
        inner.Within outer) ∧
      ∃ v, (w.subarray (.ofInt (-2)) (.ofInt (2 ^ 53))).run s = .ok v s ∧
        w.aliased (-2) (2 ^ 53) = .ok v := by
  intro s w first second
  have hw : s.Holds w := by decide
  have hlength : w.length ≤ maxLength := by decide
  have hfirst : first.Coerces s := ⟨by decide, by decide, ⟨_, rfl⟩, ⟨_, rfl⟩⟩
  have hsecond : second.Coerces s := ⟨by decide, by decide, ⟨_, rfl⟩, ⟨_, rfl⟩⟩
  obtain ⟨hcuts, hintegers⟩ := cut_composes hw hlength
  have hboth : ∀ c ∈ [first] ++ [second], c.Coerces s :=
    List.forall_mem_cons.mpr ⟨hfirst, List.forall_mem_singleton.mpr hsecond⟩
  obtain ⟨outer, inner, hrun, hruns, hread, hwithin, -⟩ := hcuts [first] [second] hboth
  refine ⟨hw, hlength, hfirst, hsecond, ⟨outer, inner, hrun, hruns, ?_, hwithin⟩,
    hintegers (-2) (2 ^ 53) (by decide) (by decide)⟩
  rw [hread]
  decide +kernel

end Window

end Octets
