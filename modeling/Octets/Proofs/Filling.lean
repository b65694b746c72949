import Octets.Proofs.Construction
import Octets.Proofs.Repetition

/-!
# Ways to ask for a filled buffer

A buffer that is made with a text and an encoding holds what a buffer of zeros holds that is filled
with the text, wherever the encoding is named: in the place of the offset, in that of the end, or
in its own. A buffer that is made with a value, whatever it is, holds what one does that is made
without it and then filled. Where one of these is refused, all are, for the same reason.

A fill looks at its arguments twice, for the encoding of a text and for the range. Two calls whose
arguments give the same encoding and the same range are the same (`Content.fill_congr`), and every
way to give the whole range gives it (`Content.fillRange_all`).

* `Content.filled_eq_fill` — making a buffer with a value is filling zeros;
* `Window.endBytes_refilled`, `Window.endBytes_filled` — a fill in a store, and a buffer that is
  made with a value, by what they are on bytes;
* `Window.fill_spellings` — all ways together.
-/

namespace Octets

/-- A computation that does not trap is one that is only checked. -/
theorem NoTrap.exists_liftM {α : Type} {r : Except Stop α} (h : NoTrap r) :
    ∃ q : Except Fault α, r = liftM q := by
  cases r with
  | ok a => exact ⟨.ok a, rfl⟩
  | error stop =>
    cases stop with
    | fault f => exact ⟨.error f, rfl⟩
    | trap t => exact absurd rfl (h t)

@[simp] theorem Content.isNoFill_map {ω ω' : Type} (f : ω → ω') (v : Value ω) :
    isNoFill (v.map f) = isNoFill v := by
  cases v <;> rfl

/-- A number in a range is let pass. -/
theorem Argument.number_eq_ok {x min max : Binary64} {name : String} (hmin : x.lt min = false)
    (hmax : max.lt x = false) (hx : x.isNaN = false) :
    number (.number x) name (some min) (some max) = .ok x := by
  simp [number, hmin, hmax, hx]

/-- A whole number that a block may have as its size is one. -/
theorem Argument.size_ofInt {n : Nat} (h : n ≤ maxLength) : size (.ofInt n) = .ok n := by
  have hx : (Binary64.ofInt n).HasValue n := Binary64.hasValue_ofInt (small_of_le_maxLength h)
  have hlow : (Binary64.ofInt n).lt (.zero false) = false := by
    rw [← Bool.not_eq_true, hx.lt_iff (Binary64.hasValue_zero false)]
    omega
  rw [size, Value.ofInt,
    number_eq_ok hlow (hx.ofNat_lt_eq_false h) (Binary64.isNaN_ofInt n), ok_bind, hx.isFloor,
    hx.trunc, Int.toNat_natCast]
  rfl

/-- Zero, of either sign, is the byte zero. -/
theorem Binary64.toByte_of_isZero {x : Binary64} (h : x.isZero = true) : x.toByte = 0 := by
  obtain ⟨negative, rank, hrank⟩ := x
  obtain rfl : rank = 0 := of_decide_eq_true h
  exact (hasValue_zero negative).toByte

namespace Content

variable {content : Bytes} {value encoding : Operand} {n : Nat}

/-! ## Whole ranges -/

/-- Fills whose arguments give the same encoding of a text and the same range are the same. -/
theorem fill_congr {offset stop encoding offset' stop' encoding' : Operand}
    (hencoding : value.isText = true →
      (span value offset stop encoding).encoding = (span value offset' stop' encoding').encoding)
    (hrange : fillRange content.length (span value offset stop encoding).offset
        (span value offset stop encoding).stop =
      fillRange content.length (span value offset' stop' encoding').offset
        (span value offset' stop' encoding').stop) :
    fill content value offset stop encoding = fill content value offset' stop' encoding' := by
  simp only [fill, pattern_congr hencoding, hrange]

/-- From zero to a bound that is the end, all bytes are filled, if there are any. -/
theorem fillRange_all {stop : Operand} (hpos : 0 < n) (hle : n ≤ maxLength)
    (hstop : Argument.Bound n n stop n) :
    fillRange n (.ofInt 0) stop = .ok (some (0, n)) := by
  obtain ⟨m, hrange, hm⟩ := exists_fillRange_number (Binary64.hasValue_ofInt (n := 0) (by decide))
    (Nat.zero_le maxLength) hstop
  obtain rfl : m = n := hm.elim id fun hlarge => absurd hle (Nat.not_le.mpr hlarge.2)
  rwa [if_neg (Nat.not_le.mpr hpos)] at hrange

/-- A bound that is a whole number. -/
theorem bound_ofInt (hle : n ≤ maxLength) : Argument.Bound n n (.ofInt n : Operand) n :=
  .number (Binary64.hasValue_ofInt (small_of_le_maxLength hle)) (Nat.le_refl n)

/-- The ways to name the encoding of a text that a buffer of `n` bytes is filled with from end to
end. -/
def spellings {ω : Type} (n : Nat) (e : String) : List (Span ω) :=
  [⟨.text e, .undefined, .undefined⟩, ⟨.ofInt 0, .text e, .undefined⟩,
    ⟨.ofInt 0, .ofInt n, .text e⟩]

/-- No buffer names the encoding of a text. -/
theorem buffers_of_mem_spellings {ω : Type} {e : String} {place : Span ω}
    (h : place ∈ spellings n e) : place.buffers = [] := by
  simp only [spellings, List.mem_cons, List.not_mem_nil, or_false] at h
  obtain rfl | rfl | rfl := h <;> rfl

theorem map_mem_spellings {ω ω' : Type} (f : ω → ω') {e : String} {place : Span ω}
    (h : place ∈ spellings n e) : place.map f ∈ spellings n e := by
  simp only [spellings, List.mem_cons, List.not_mem_nil, or_false] at h ⊢
  obtain rfl | rfl | rfl := h
  · exact .inl rfl
  · exact .inr (.inl rfl)
  · exact .inr (.inr rfl)

/-- Wherever the encoding of a text is named, it is the one, and all bytes are filled. -/
theorem fill_spelling {text e : String} (hpos : 0 < content.length)
    (hle : content.length ≤ maxLength) :
    ∀ place ∈ spellings content.length e,
      fill content (.text text) place.offset place.stop place.encoding =
        fill content (.text text) (.ofInt 0) (.ofInt content.length) (.text e) := by
  have hgiven := fillRange_all hpos hle (bound_ofInt hle)
  have hmissing := fillRange_all hpos hle .missing
  intro place hplace
  simp only [spellings, List.mem_cons, List.not_mem_nil, or_false] at hplace
  obtain rfl | rfl | rfl := hplace
  · exact fill_congr (fun _ => rfl) hgiven.symm
  · exact fill_congr (fun _ => rfl) (hmissing.trans hgiven.symm)
  · rfl

/-- Without a range all bytes are filled, as they are with the whole range. -/
theorem fill_whole (hpos : 0 < content.length) (hle : content.length ≤ maxLength) :
    fill content value .undefined .undefined .undefined =
      fill content value (.ofInt 0) (.ofInt content.length) .undefined := by
  have hgiven := fillRange_all hpos hle (bound_ofInt hle)
  have hspan : span value (.ofInt 0) (.ofInt content.length) .undefined =
      ⟨.ofInt 0, .ofInt content.length, .undefined⟩ := span_number (bound_ofInt hle)
  refine fill_congr (fun htext => ?_) ?_
  · rw [hspan, span, if_pos htext]
    rfl
  · rw [hspan]
    refine Eq.trans ?_ hgiven.symm
    unfold span
    split <;> rfl

/-! ## New buffers -/

/-- A value that asks for no filling fills zeros with zeros. -/
theorem fill_zeros_of_isNoFill (h : isNoFill value = true) (n : Nat) :
    fill (List.replicate n 0) value .undefined .undefined .undefined =
      .ok (List.replicate n 0) := by
  have hpattern : pattern value .undefined = .ok (.single 0) := by
    cases value with
    | undefined => rfl
    | number x =>
      have hbyte : x.toByte = 0 := Binary64.toByte_of_isZero h
      simp only [pattern, Value.toByte, Value.toNumber, Except.map, ok_bind, hbyte]
      rfl
    | _ => cases h
  have hspan : span value .undefined .undefined .undefined =
      (⟨.undefined, .undefined, .undefined⟩ : Span Bytes) := by
    unfold span
    split <;> rfl
  have hnew : replaced (List.replicate n 0) 0 n (repeated [0] n) = .ok (List.replicate n 0) := by
    rw [repeated_single, replaced_eq_ok (Nat.zero_le n) (by simp) (by simp)]
    simp [Bytes.overwrite]
  simp only [fill, hspan, hpattern, List.length_replicate]
  exact hnew

/-- A buffer that is made with a value is one of zeros that is filled, if it is not empty. -/
theorem filled_eq (hpos : 0 < n) (hle : n ≤ maxLength) (value encoding : Operand) :
    filled (.ofInt n) value encoding =
      if isNoFill value then .ok (List.replicate n 0)
      else fill (List.replicate n 0) value (.ofInt 0) (.ofInt n) encoding := by
  have hblank : (n == 0) = false := beq_eq_false_iff_ne.mpr (Nat.ne_of_gt hpos)
  simp only [filled, Argument.size_ofInt hle, Argument.blockSize_eq_ok hle, liftM_ok, ok_bind,
    hblank, Bool.or_false]
  rfl

/-- Making a buffer with a value is making one without it, and filling that. -/
theorem filled_eq_fill (hpos : 0 < n) (hle : n ≤ maxLength) (value : Operand) :
    filled (.ofInt n) value .undefined =
      fill (List.replicate n 0) value .undefined .undefined .undefined := by
  rw [filled_eq hpos hle]
  split
  · rename_i hnone
    exact (fill_zeros_of_isNoFill hnone n).symm
  · have hwhole := @fill_whole (List.replicate n 0) value
    rw [List.length_replicate] at hwhole
    exact (hwhole hpos hle).symm

end Content

/-! ## In a store -/

/-- What a run ends in that gives a window: the bytes that the window shows then, or the reason why
there is none. -/
def Store.endBytes : EStateM.Result Stop Store Window → Except Stop Bytes
  | .ok w t => .ok (t.read w)
  | .error stop _ => .error stop

namespace Window

open Content (Span)

variable {s : Store} {w : Window} {size value encoding : Value Window} {n : Nat}

/-- Fill a window, and give it. -/
def refilled (w : Window) (value : Value Window) (place : Span Window) : Action Store Window := do
  w.fill value place.offset place.stop place.encoding
  return w

/-- A fill gives the bytes that it gives of those that the window shows. -/
theorem endBytes_refilled (place : Span Window) (hw : s.Holds w)
    (hv : ∀ u ∈ value.buffers, s.Holds u) (hplace : ∀ u ∈ place.buffers, s.Holds u) :
    Store.endBytes ((w.refilled value place).run s) =
      Content.fill (s.read w) (value.map s.read) (place.offset.map s.read) (place.stop.map s.read)
        (place.encoding.map s.read) := by
  simp only [Span.buffers, List.mem_append, or_imp, forall_and] at hplace
  obtain ⟨⟨hoffset, hstop⟩, hencoding⟩ := hplace
  rw [refilled, Store.run_settle_return (run_fill hw hv hoffset hstop hencoding)]
  cases hfill : Content.fill (s.read w) (value.map s.read) (place.offset.map s.read)
      (place.stop.map s.read) (place.encoding.map s.read) with
  | ok new =>
    have hlength : new.length = w.length := (Content.length_fill hfill).trans (Store.length_read hw)
    exact congrArg Except.ok (Store.read_write_self hw hlength)
  | error stop => rfl

/-- A buffer that is made with a value gives the bytes that its arguments give. -/
theorem endBytes_filled (hsize : ∀ u ∈ size.buffers, s.Holds u)
    (hv : ∀ u ∈ value.buffers, s.Holds u) (he : ∀ u ∈ encoding.buffers, s.Holds u) :
    Store.endBytes ((filled size value encoding).run s) =
      Content.filled (size.map s.read) (value.map s.read) (encoding.map s.read) := by
  rw [filled, Content.filled, EStateM.run_bind, Value.run_ask hsize]
  cases Argument.size (size.map s.read) with
  | error f => rfl
  | ok n =>
    simp only [liftM_ok, Action.outcome_ok, ok_bind]
    rw [EStateM.run_bind, Store.run_allocate]
    cases Argument.blockSize n with
    | error f => rfl
    | ok _ =>
      simp only [liftM_ok, ok_bind, Store.added_ok, Content.isNoFill_map]
      split
      · exact congrArg Except.ok (Store.read_adopt_self s _)
      · -- The fill runs in the store with the new block, in which the value is what it was.
        have hextends := Store.Extends.adopt s (List.replicate n 0)
        have hkept {v : Value Window} (h : ∀ u ∈ v.buffers, s.Holds u) :
            v.map (s.adopt (List.replicate n 0)).2.read = v.map s.read :=
          Value.map_congr fun u hu => Store.read_adopt (h u hu).1 _
        have hrefilled := endBytes_refilled ⟨.ofInt 0, .ofInt n, encoding⟩
          (s.holds_adopt (List.replicate n 0)) (fun u hu => hextends.holds (hv u hu)) (by
            simpa [Span.buffers] using fun u hu => hextends.holds (he u hu))
        simp only [Store.read_adopt_self, hkept hv, hkept he, Value.map_ofInt] at hrefilled
        exact hrefilled

/-- A buffer that is made without a value is a new block of zeros. -/
theorem run_filled_undefined (hbuffers : ∀ u ∈ size.buffers, s.Holds u)
    (hsize : Argument.size (size.map s.read) = .ok n) (hle : n ≤ maxLength) :
    (filled size .undefined .undefined).run s =
      .ok (s.adopt (List.replicate n 0)).1 (s.adopt (List.replicate n 0)).2 := by
  rw [filled, EStateM.run_bind, Value.run_ask hbuffers, hsize]
  simp only [liftM_ok, Action.outcome_ok]
  rw [EStateM.run_bind, Store.run_allocate, Argument.blockSize_eq_ok hle]
  rfl

/-- Making a buffer and then filling it is filling zeros. -/
theorem endBytes_filled_refilled (hbuffers : ∀ u ∈ size.buffers, s.Holds u)
    (hsize : Argument.size (size.map s.read) = .ok n) (hle : n ≤ maxLength)
    (hv : ∀ u ∈ value.buffers, s.Holds u) :
    Store.endBytes ((do
        let w ← filled size .undefined .undefined
        w.refilled value ⟨.undefined, .undefined, .undefined⟩).run s) =
      Content.fill (List.replicate n 0) (value.map s.read) .undefined .undefined .undefined := by
  have hextends := Store.Extends.adopt s (List.replicate n 0)
  have hkept : value.map (s.adopt (List.replicate n 0)).2.read = value.map s.read :=
    Value.map_congr fun u hu => Store.read_adopt (hv u hu).1 _
  have hrefilled := endBytes_refilled ⟨.undefined, .undefined, .undefined⟩
    (s.holds_adopt (List.replicate n 0)) (fun u hu => hextends.holds (hv u hu)) (by
      simp [Span.buffers, Value.buffers])
  rw [Store.read_adopt_self, hkept] at hrefilled
  rw [EStateM.run_bind, run_filled_undefined hbuffers hsize hle]
  exact hrefilled

/-- All ways to ask for a buffer of a size that is filled from end to end with a text in an
encoding, which need not be one, end in the same bytes or with the same fault: making it with both,
and filling zeros where the encoding stands in the place of the offset, in that of the end, or in
its own. And so do, for a value of any kind, making a buffer with it and filling a new one. -/
theorem fill_spellings {n : Nat} (hpos : 0 < n) (hle : n ≤ maxLength) :
    (∀ text e : String, ∃ r : Except Fault Bytes,
      (∀ s : Store,
        Store.endBytes ((filled (.ofInt n) (.text text) (.text e)).run s) = liftM r) ∧
      ∀ (s : Store) (w : Window), s.Holds w → s.read w = List.replicate n 0 →
        ∀ place ∈ Content.spellings n e,
          Store.endBytes ((w.refilled (.text text) place).run s) = liftM r) ∧
    ∀ (s : Store) (v : Value Window), (∀ u ∈ v.buffers, s.Holds u) →
      ∃ r : Except Fault Bytes,
        Store.endBytes ((filled (.ofInt n) v .undefined).run s) = liftM r ∧
        Store.endBytes ((do
          let w ← filled (.ofInt n) .undefined .undefined
          w.refilled v ⟨.undefined, .undefined, .undefined⟩).run s) = liftM r := by
  have hzeros : (List.replicate n (0 : UInt8)).length = n := List.length_replicate
  have hmax : (List.replicate n (0 : UInt8)).length ≤ maxLength := hzeros.symm ▸ hle
  have hsize (s : Store) : ∀ u ∈ (Value.ofInt n : Value Window).buffers, s.Holds u := by simp
  constructor
  · intro text e
    obtain ⟨r, hr⟩ := (Content.noTrap_fill (.text text) (.ofInt 0) (.ofInt n) (.text e)
      hmax).exists_liftM
    refine ⟨r, fun s => ?_, fun s w hw hread place hplace => ?_⟩
    · rw [endBytes_filled (hsize s) (by simp [Value.buffers]) (by simp [Value.buffers]),
        Value.map_ofInt, Content.filled_eq hpos hle, ← hr]
      rfl
    · have hnone := Content.buffers_of_mem_spellings hplace
      rw [endBytes_refilled place hw (by simp [Value.buffers]) (by simp [hnone]), hread,
        Value.map_text, ← hr]
      have hspelling :=
        @Content.fill_spelling (List.replicate n 0) text e (by simpa using hpos) hmax
      rw [hzeros] at hspelling
      simpa only [Span.map] using hspelling _ (Content.map_mem_spellings s.read hplace)
  · intro s v hv
    obtain ⟨r, hr⟩ := (Content.noTrap_fill (v.map s.read) .undefined .undefined .undefined
      hmax).exists_liftM
    refine ⟨r, ?_, ?_⟩
    · rw [endBytes_filled (hsize s) hv (by simp [Value.buffers]), Value.map_ofInt,
        Value.map_undefined, Content.filled_eq_fill hpos hle, hr]
    · have hargument : Argument.size ((Value.ofInt n : Value Window).map s.read) = .ok n := by
        rw [Value.map_ofInt, Argument.size_ofInt hle]
      rw [endBytes_filled_refilled (hsize s) hargument hle hv, hr]

/-- Three zeros behind a byte, filled with a text of hex digits, and a buffer that is made with the
bytes of another block. -/
theorem fill_spellings_hex :
    let s : Store := ⟨[[9, 0, 0, 0], [7, 8]]⟩
    let w : Window := ⟨0, 1, 3⟩
    let v : Value Window := .buffer ⟨1, 0, 2⟩
    0 < 3 ∧ 3 ≤ maxLength ∧ s.Holds w ∧ s.read w = List.replicate 3 0 ∧
      (∀ u ∈ v.buffers, s.Holds u) ∧
      Store.endBytes ((filled (.ofInt 3) (.text "6a") (.text "hex")).run s) = .ok [106, 106, 106] ∧
      (∀ place ∈ Content.spellings 3 "hex",
        Store.endBytes ((w.refilled (.text "6a") place).run s) = .ok [106, 106, 106]) ∧
      ∃ r : Except Fault Bytes,
        Store.endBytes ((filled (.ofInt 3) v .undefined).run s) = liftM r ∧
        Store.endBytes ((do
          let w ← filled (.ofInt 3) .undefined .undefined
          w.refilled v ⟨.undefined, .undefined, .undefined⟩).run s) = liftM r := by
  intro s w v
  have hpos : 0 < 3 := by decide
  have hle : 3 ≤ maxLength := by decide
  have hw : s.Holds w := by decide
  have hv : ∀ u ∈ v.buffers, s.Holds u := by decide
  obtain ⟨htexts, hvalues⟩ := fill_spellings hpos hle
  obtain ⟨r, hmade, hfilled⟩ := htexts "6a" "hex"
  -- What all of them end in is told by the first one, in which there is no number.
  have hfill : Content.fill [0, 0, 0] (.text "6a") (.text "hex") .undefined .undefined =
      .ok [106, 106, 106] := rfl
  let place : Span Window := ⟨.text "hex", .undefined, .undefined⟩
  have hrun : Store.endBytes ((w.refilled (.text "6a") place).run s) = .ok [106, 106, 106] :=
    (endBytes_refilled place hw (by simp [Value.buffers])
      (by simp [place, Span.buffers, Value.buffers])).trans hfill
  have hfirst : (liftM r : Except Stop Bytes) = .ok [106, 106, 106] :=
    (hfilled s w hw rfl _ List.mem_cons_self).symm.trans hrun
  exact ⟨hpos, hle, hw, rfl, hv, (hmade s).trans hfirst,
    fun place hplace => (hfilled s w hw rfl place hplace).trans hfirst, hvalues s v hv⟩

end Window

end Octets
