import Octets.Proofs.Acceptance
import Octets.Proofs.Field
import Octets.Proofs.TwosComplement

/-!
# Integers in fields

A field of an integer is asked for in three ways (`Field.Integral`): by its layout, by a width that
is an argument, and as one of a big integer. Where such a field lies is said once for all three
(`Field.Integral.LiesAt`), and so is which integer is written for a value (`Field.Integral.Takes`).

* `Field.Integral.read_eq_ok_iff`, `Field.Integral.write_eq_ok_iff` — when a field is read and
  written, and what it then gives;
* `Field.Integral.store_twosComplement` — a write byte for byte in the store.
-/

namespace Octets

open Argument (StartsAt place_eq_ok_iff)

namespace Field

variable {content new : Bytes} {value offset : Operand} {width n : Nat}

/-! ## Fields at their places -/

/-- What is read at the place of a field. -/
theorem read_place_eq_ok_iff {α : Type} (hlength : content.length ≤ maxLength)
    (hwidth : width ≤ 8) (f : Bytes → α) {a : α} :
    (do
      let start ← Argument.place offset content.length width
      let field ← part content start (start + width)
      return f field : Except Stop α) = .ok a ↔
        ∃ k, StartsAt offset k ∧ k + width ≤ content.length ∧
          a = f (content.range k (k + width)) := by
  have hmax : maxLength = 2147483647 := rfl
  simp only [bind_eq_ok, liftM_eq_ok_iff, place_eq_ok_iff hlength (show width ≤ maxLength by omega),
    part_eq_ok_iff]
  constructor
  · intro h
    obtain ⟨k, ⟨hstart, hroom⟩, field, ⟨-, rfl⟩, ha⟩ := h
    exact ⟨k, hstart, hroom, (Except.ok.inj ha).symm⟩
  · intro h
    obtain ⟨k, hstart, hroom, rfl⟩ := h
    exact ⟨k, ⟨hstart, hroom⟩, _, ⟨⟨Nat.le_add_right k width, hroom⟩, rfl⟩, rfl⟩

/-- What is written at the place of a field. -/
theorem write_place_eq_ok_iff (hlength : content.length ≤ maxLength) (hwidth : width ≤ 8)
    {bytes : Bytes} (hbytes : bytes.length = width) :
    (do
      let start ← Argument.place offset content.length width
      let new ← replaced content start (start + width) bytes
      return (new, start + width) : Except Stop (Bytes × Nat)) = .ok (new, n) ↔
        ∃ k, StartsAt offset k ∧ k + width ≤ content.length ∧
          new = content.overwrite k bytes ∧ n = k + width := by
  have hmax : maxLength = 2147483647 := rfl
  have hreplaced : ∀ k, k + width ≤ content.length →
      replaced content k (k + width) bytes = .ok (content.overwrite k bytes) := fun k hroom =>
    replaced_eq_ok (Nat.le_add_right k width) hroom (by omega)
  simp only [bind_eq_ok, liftM_eq_ok_iff, place_eq_ok_iff hlength (show width ≤ maxLength by omega)]
  constructor
  · intro h
    obtain ⟨k, ⟨hstart, hroom⟩, bytes', hnew, hpair⟩ := h
    rw [hreplaced k hroom] at hnew
    cases hnew
    cases hpair
    exact ⟨k, hstart, hroom, rfl, rfl⟩
  · intro h
    obtain ⟨k, hstart, hroom, rfl, rfl⟩ := h
    exact ⟨k, ⟨hstart, hroom⟩, _, hreplaced k hroom, rfl⟩

/-- An offset that begins a field has the type of one. -/
theorem checkOffset_eq_ok (l : Layout) {k : Nat} (h : StartsAt offset k) :
    checkOffset l offset = .ok () := by
  unfold checkOffset
  cases h <;> split <;> rfl

theorem readInteger_eq_ok_iff {l : Layout} (hlength : content.length ≤ maxLength) {v : Int} :
    readInteger l content offset = .ok v ↔
      l.width ≤ maxNumberWidth ∧ ∃ k, StartsAt offset k ∧ k + l.width ≤ content.length ∧
        v = Word.toInt l.signed l.bits (Word.ofBytes l.order (content.range k (k + l.width))) := by
  unfold readInteger
  rw [bind_eq_ok]
  simp only [liftM_eq_ok_iff, checkWidth_eq_ok_iff, exists_const]
  exact and_congr_right fun _ => read_place_eq_ok_iff hlength l.width_le _

theorem writeInteger_eq_ok_iff {l : Layout} (hlength : content.length ≤ maxLength) :
    writeInteger l content value offset = .ok (new, n) ↔
      l.width ≤ maxNumberWidth ∧ ∃ m, (∃ x, value.toNumber = .ok x ∧ l.Takes x m) ∧
        ∃ k, StartsAt offset k ∧ k + l.width ≤ content.length ∧
          new = content.overwrite k (Word.toBytes l.order l.width (Word.ofInt l.bits m)) ∧
          n = k + l.width := by
  unfold writeInteger
  rw [bind_eq_ok]
  simp only [liftM_eq_ok_iff, checkWidth_eq_ok_iff, exists_const]
  refine and_congr_right fun hwidth => ?_
  constructor
  · intro h
    obtain ⟨x, hx, h⟩ := bind_eq_ok.mp h
    obtain ⟨_, -, h⟩ := bind_eq_ok.mp h
    obtain ⟨m, hm, h⟩ := bind_eq_ok.mp h
    exact ⟨m, ⟨x, liftM_eq_ok_iff.mp hx, (accepted_eq_ok_iff hwidth).mp (liftM_eq_ok_iff.mp hm)⟩,
      (write_place_eq_ok_iff hlength l.width_le (Word.length_toBytes ..)).mp h⟩
  · intro h
    obtain ⟨m, ⟨x, hx, hm⟩, k, hplaced⟩ := h
    rw [hx, liftM_ok, ok_bind, checkOffset_eq_ok l hplaced.1, liftM_ok, ok_bind,
      (accepted_eq_ok_iff hwidth).mpr hm, liftM_ok, ok_bind]
    exact (write_place_eq_ok_iff hlength l.width_le (Word.length_toBytes ..)).mpr ⟨k, hplaced⟩

end Field

/-! ## Fields of integers -/

/-- A field of an integer, by the way that it is asked for. -/
inductive Field.Integral (ω : Type) where
  /-- A field that holds a number, of a known layout. -/
  | fixed (l : Layout)
  /-- A field that holds a number, whose width is an argument. -/
  | sized (signed : Bool) (order : ByteOrder) (width : Value ω)
  /-- A field that holds a big integer. -/
  | big (signed : Bool) (order : ByteOrder)

namespace Field.Integral

/-- Give the buffer of the argument in another way. -/
def map {ω ω' : Type} (f : ω → ω') : Integral ω → Integral ω'
  | .fixed l => .fixed l
  | .sized signed order width => .sized signed order (width.map f)
  | .big signed order => .big signed order

/-- The buffer of the argument, if it is one. -/
def buffers {ω : Type} : Integral ω → List ω
  | .sized _ _ width => width.buffers
  | _ => []

/-- The integer in a field of a window. -/
def load (a : Integral Window) (w : Window) (offset : Value Window) : Action Store Int :=
  match a with
  | .fixed l => w.readInteger l offset
  | .sized signed order width => w.readSized signed order offset width
  | .big signed order => w.readBig signed order offset

/-- Write a value into a field of a window. -/
def store (a : Integral Window) (w : Window) (value offset : Value Window) : Action Store Nat :=
  match a with
  | .fixed l => w.writeInteger l value offset
  | .sized signed order width => w.writeSized signed order value offset width
  | .big signed order => w.writeBig signed order value offset

/-- The integer in a field. -/
def read (a : Integral Bytes) (content : Bytes) (offset : Operand) : Except Stop Int :=
  match a with
  | .fixed l => readInteger l content offset
  | .sized signed order width => readSized signed order content offset width
  | .big signed order => readBig signed order content offset

/-- Write a value into a field. -/
def write (a : Integral Bytes) (content : Bytes) (value offset : Operand) :
    Except Stop (Bytes × Nat) :=
  match a with
  | .fixed l => writeInteger l content value offset
  | .sized signed order width => writeSized signed order content value offset width
  | .big signed order => writeBig signed order content value offset

/-- Among `length` bytes, a field of the layout begins at byte `k`: its width is one that the field
can have, it begins there, and there is room for it. An offset that is missing is one of the first
byte, but for a field whose width is an argument it must be given. -/
inductive LiesAt {ω : Type} (length : Nat) : Integral ω → Value ω → Layout → Nat → Prop where
  | fixed {l : Layout} {offset : Value ω} {k : Nat} (hwidth : l.width ≤ maxNumberWidth)
    (hstart : StartsAt offset k) (hroom : k + l.width ≤ length) :
    LiesAt length (.fixed l) offset l k
  | sized {l : Layout} {x y : Binary64} {k : Nat} (hwidth : l.width ≤ maxNumberWidth)
    (hx : x.HasValue l.width) (hy : y.HasValue k) (hroom : k + l.width ≤ length) :
    LiesAt length (.sized l.signed l.order (.number x)) (.number y) l k
  | big {signed : Bool} {order : ByteOrder} {offset : Value ω} {k : Nat}
    (hstart : StartsAt offset k) (hroom : k + 8 ≤ length) :
    LiesAt length (.big signed order) offset (.int64 signed order) k

/-- The integer that is written for a value: a big integer in the range stands for itself, in a
field that holds one, and elsewhere the number of any other value stands for the integer that it is
when it is rounded toward zero. -/
def Takes {ω : Type} (a : Integral ω) (l : Layout) (value : Operand) (m : Int) : Prop :=
  match a with
  | .fixed _ | .sized _ _ _ =>
    (∀ n, value ≠ .bigInteger n) ∧ ∃ x, value.toNumber = .ok x ∧ l.Takes x m
  | .big _ _ => value = .bigInteger m ∧ l.min ≤ m ∧ m ≤ l.max

section

variable {ω : Type} {a : Integral ω} {offset : Value ω} {l : Layout} {length k : Nat}

theorem LiesAt.startsAt (h : a.LiesAt length offset l k) : StartsAt offset k := by
  cases h with
  | fixed hwidth hstart hroom => exact hstart
  | sized hwidth hx hy hroom => exact .number hy
  | big hstart hroom => exact hstart

theorem LiesAt.add_le (h : a.LiesAt length offset l k) : k + l.width ≤ length := by
  cases h with
  | fixed hwidth hstart hroom => exact hroom
  | sized hwidth hx hy hroom => exact hroom
  | big hstart hroom => exact hroom

/-- Where a field lies does not depend on what the buffers show. -/
theorem liesAt_map_iff {ω' : Type} (f : ω → ω') :
    (a.map f).LiesAt length (offset.map f) l k ↔ a.LiesAt length offset l k := by
  have hstart := @Argument.startsAt_map_iff k _ _ f offset
  cases a with
  | fixed l' =>
    constructor
    · intro h
      cases h with
      | fixed hwidth hmapped hroom => exact .fixed hwidth (hstart.mp hmapped) hroom
    · intro h
      cases h with
      | fixed hwidth hgiven hroom => exact .fixed hwidth (hstart.mpr hgiven) hroom
  | sized signed order width =>
    constructor
    · intro h
      cases width with
      | number x =>
        cases offset with
        | number y =>
          cases h with
          | sized hwidth hx hy hroom => exact .sized hwidth hx hy hroom
        | _ => cases h
      | _ => cases h
    · intro h
      cases h with
      | sized hwidth hx hy hroom => exact .sized hwidth hx hy hroom
  | big signed order =>
    constructor
    · intro h
      cases h with
      | big hmapped hroom => exact .big (hstart.mp hmapped) hroom
    · intro h
      cases h with
      | big hgiven hroom => exact .big (hstart.mpr hgiven) hroom

end

/-! ## Reading and writing -/

section

variable {a : Integral Bytes} {content new : Bytes} {value offset : Operand} {n : Nat}

/-- A value that has a number is not a big integer. -/
theorem exists_number_iff {P : Binary64 → Prop} :
    (∃ x, value.toNumber = .ok x ∧ P x) ↔
      (∀ n, value ≠ .bigInteger n) ∧ ∃ x, value.toNumber = .ok x ∧ P x := by
  refine ⟨fun h => ⟨?_, h⟩, And.right⟩
  rintro n rfl
  obtain ⟨x, hx, -⟩ := h
  nomatch hx

/-- A field is read where it lies. -/
theorem read_eq_ok_iff (hlength : content.length ≤ maxLength) {v : Int} :
    a.read content offset = .ok v ↔
      ∃ l k, a.LiesAt content.length offset l k ∧
        v = Word.toInt l.signed l.bits (Word.ofBytes l.order (content.range k (k + l.width))) := by
  cases a with
  | fixed l =>
    refine (readInteger_eq_ok_iff hlength).trans ⟨?_, ?_⟩
    · intro h
      obtain ⟨hwidth, k, hstart, hroom, hv⟩ := h
      exact ⟨l, k, .fixed hwidth hstart hroom, hv⟩
    · intro h
      obtain ⟨_, k, hlies, hv⟩ := h
      cases hlies with
      | fixed hwidth hstart hroom => exact ⟨hwidth, k, hstart, hroom, hv⟩
  | sized signed order width =>
    simp only [read, readSized, bind_eq_ok, liftM_eq_ok_iff, requireOffset_eq_ok_iff,
      exists_const, sizedLayout_eq_ok_iff, readInteger_eq_ok_iff hlength]
    constructor
    · intro h
      obtain ⟨hgiven, l, ⟨⟨rfl, rfl⟩, -, x, rfl, hx⟩, hwidth, k, hstart, hroom, hv⟩ := h
      cases hstart with
      | missing => nomatch hgiven
      | number hy => exact ⟨l, k, .sized hwidth hx hy hroom, hv⟩
    · intro h
      obtain ⟨l, k, hlies, hv⟩ := h
      cases hlies with
      | sized hwidth hx hy hroom =>
        exact ⟨rfl, l, ⟨⟨rfl, rfl⟩, hwidth, _, rfl, hx⟩, hwidth, k, .number hy, hroom, hv⟩
  | big signed order =>
    refine (read_place_eq_ok_iff hlength (Nat.le_refl 8) _).trans ⟨?_, ?_⟩
    · intro h
      obtain ⟨k, hstart, hroom, hv⟩ := h
      exact ⟨_, k, .big hstart hroom, hv⟩
    · intro h
      obtain ⟨_, k, hlies, hv⟩ := h
      cases hlies with
      | big hstart hroom => exact ⟨k, hstart, hroom, hv⟩

/-- A field is written where it lies, if it takes the value: with the word of the integer that the
value stands for. -/
theorem write_eq_ok_iff (hlength : content.length ≤ maxLength) :
    a.write content value offset = .ok (new, n) ↔
      ∃ l k m, a.LiesAt content.length offset l k ∧ a.Takes l value m ∧
        new = content.overwrite k (Word.toBytes l.order l.width (Word.ofInt l.bits m)) ∧
        n = k + l.width := by
  cases a with
  | fixed l =>
    refine (writeInteger_eq_ok_iff hlength).trans ⟨?_, ?_⟩
    · intro h
      obtain ⟨hwidth, m, hm, k, hstart, hroom, hwritten⟩ := h
      exact ⟨l, k, m, .fixed hwidth hstart hroom, exists_number_iff.mp hm, hwritten⟩
    · intro h
      obtain ⟨_, k, m, hlies, htakes, hwritten⟩ := h
      cases hlies with
      | fixed hwidth hstart hroom =>
        exact ⟨hwidth, m, exists_number_iff.mpr htakes, k, hstart, hroom, hwritten⟩
  | sized signed order width =>
    simp only [write, writeSized, bind_eq_ok, liftM_eq_ok_iff, requireOffset_eq_ok_iff,
      exists_const, sizedLayout_eq_ok_iff, writeInteger_eq_ok_iff hlength]
    constructor
    · intro h
      obtain ⟨l, ⟨⟨rfl, rfl⟩, -, x, rfl, hx⟩, hgiven, hwidth, m, hm, k, hstart, hroom,
        hwritten⟩ := h
      cases hstart with
      | missing => nomatch hgiven
      | number hy =>
        exact ⟨l, k, m, .sized hwidth hx hy hroom, exists_number_iff.mp hm, hwritten⟩
    · intro h
      obtain ⟨l, k, m, hlies, htakes, hwritten⟩ := h
      cases hlies with
      | sized hwidth hx hy hroom =>
        exact ⟨l, ⟨⟨rfl, rfl⟩, hwidth, _, rfl, hx⟩, rfl, hwidth, m, exists_number_iff.mpr htakes, k,
          .number hy, hroom, hwritten⟩
  | big signed order =>
    simp only [write, writeBig, bind_eq_ok (r := liftM (acceptedBig signed order value)),
      liftM_eq_ok_iff, acceptedBig_eq_ok_iff,
      write_place_eq_ok_iff hlength (Nat.le_refl 8) (Word.length_toBytes order 8 _)]
    constructor
    · intro h
      obtain ⟨m, htakes, k, hstart, hroom, hwritten⟩ := h
      exact ⟨_, k, m, .big hstart hroom, htakes, hwritten⟩
    · intro h
      obtain ⟨_, k, m, hlies, htakes, hwritten⟩ := h
      cases hlies with
      | big hstart hroom => exact ⟨m, htakes, k, hstart, hroom, hwritten⟩

end

/-! ## Integers in a store -/

section

variable {s : Store} {w : Window} {a : Integral Window} {value offset : Value Window}

theorem run_load (hw : s.Holds w) (ha : ∀ v ∈ a.buffers, s.Holds v)
    (ho : ∀ v ∈ offset.buffers, s.Holds v) :
    (a.load w offset).run s =
      Action.outcome ((a.map s.read).read (s.read w) (offset.map s.read)) s := by
  cases a with
  | fixed l => exact w.run_readInteger l hw ho
  | sized signed order width => exact w.run_readSized signed order hw ho ha
  | big signed order => exact w.run_readBig signed order hw ho

theorem run_store (hw : s.Holds w) (ha : ∀ v ∈ a.buffers, s.Holds v)
    (hv : ∀ v ∈ value.buffers, s.Holds v) (ho : ∀ v ∈ offset.buffers, s.Holds v) :
    (a.store w value offset).run s =
      s.settle w ((a.map s.read).write (s.read w) (value.map s.read) (offset.map s.read)) := by
  cases a with
  | fixed l => exact w.run_writeInteger l hw hv ho
  | sized signed order width => exact w.run_writeSized signed order hw hv ho ha
  | big signed order => exact w.run_writeBig signed order hw hv ho

theorem takes_map_iff {ω' : Type} (f : Window → ω') {l : Layout} {value : Operand} {m : Int} :
    (a.map f).Takes l value m ↔ a.Takes l value m := by
  cases a <;> rfl

/-- What a successful write has done: the field lies in the window, it takes the value, and the word
of the integer that the value stands for is in the window. -/
theorem run_store_eq_ok_iff (hw : s.Holds w) (hlength : w.length ≤ maxLength)
    (ha : ∀ v ∈ a.buffers, s.Holds v) (hv : ∀ v ∈ value.buffers, s.Holds v)
    (ho : ∀ v ∈ offset.buffers, s.Holds v) {n : Nat} {t : Store} :
    (a.store w value offset).run s = .ok n t ↔
      ∃ l k m, a.LiesAt w.length offset l k ∧ a.Takes l (value.map s.read) m ∧ n = k + l.width ∧
        t = s.write w ((s.read w).overwrite k
          (Word.toBytes l.order l.width (Word.ofInt l.bits m))) := by
  have hread := Store.length_read hw
  rw [run_store hw ha hv ho, Store.settle_eq_ok_iff]
  simp only [write_eq_ok_iff (hread.trans_le hlength), hread, liesAt_map_iff, takes_map_iff]
  constructor
  · intro h
    obtain ⟨_, ⟨l, k, m, hlies, htakes, rfl, rfl⟩, rfl⟩ := h
    exact ⟨l, k, m, hlies, htakes, rfl, rfl⟩
  · intro h
    obtain ⟨l, k, m, hlies, htakes, rfl, rfl⟩ := h
    exact ⟨_, ⟨l, k, m, hlies, htakes, rfl, rfl⟩, rfl⟩

/-- A field of an integer is written if and only if it lies in the window and takes the value. The
write answers the end of the field. Afterwards the field holds the two's complement of the integer
that the value stands for, and every other byte of every block is what it was. -/
theorem store_twosComplement (hw : s.Holds w) (hlength : w.length ≤ maxLength)
    (ha : ∀ v ∈ a.buffers, s.Holds v) (hv : ∀ v ∈ value.buffers, s.Holds v)
    (ho : ∀ v ∈ offset.buffers, s.Holds v) :
    ((∃ n t, (a.store w value offset).run s = .ok n t) ↔
      ∃ l k m, a.LiesAt w.length offset l k ∧ a.Takes l (value.map s.read) m) ∧
    ∀ l k m, a.LiesAt w.length offset l k → a.Takes l (value.map s.read) m →
      ∃ t, (a.store w value offset).run s = .ok (k + l.width) t ∧
        t.blocks.length = s.blocks.length ∧ ∀ id i : Nat, (t.block id)[i]? =
          if id = w.block ∧ w.offset + k ≤ i ∧ i < w.offset + k + l.width then
            some (Word.twosComplement l.order l.width m (i - (w.offset + k)))
          else (s.block id)[i]? := by
  have hwrites : ∀ l k m, a.LiesAt w.length offset l k → a.Takes l (value.map s.read) m →
      (a.store w value offset).run s = .ok (k + l.width) (s.write w ((s.read w).overwrite k
        (Word.toBytes l.order l.width (Word.ofInt l.bits m)))) := fun l k m hlies htakes =>
    (run_store_eq_ok_iff hw hlength ha hv ho).mpr ⟨l, k, m, hlies, htakes, rfl, rfl⟩
  constructor
  · constructor
    · intro h
      obtain ⟨n, t, hrun⟩ := h
      obtain ⟨l, k, m, hlies, htakes, -, -⟩ := (run_store_eq_ok_iff hw hlength ha hv ho).mp hrun
      exact ⟨l, k, m, hlies, htakes⟩
    · intro h
      obtain ⟨l, k, m, hlies, htakes⟩ := h
      exact ⟨_, _, hwrites l k m hlies htakes⟩
  · intro l k m hlies htakes
    have hbytes := Word.length_toBytes l.order l.width (Word.ofInt l.bits m)
    have hroom := hlies.add_le
    refine ⟨_, hwrites l k m hlies htakes, List.length_modify .., ?_⟩
    intro id i
    rw [Store.getElem?_write_overwrite hw (by omega), hbytes]
    exact if_ctx_congr Iff.rfl
      (fun hin => Word.getElem?_toBytes_ofInt l.order m (by omega)) fun _ => rfl

/-- Three bytes of a window hold `-2` afterwards, least significant byte first, for the number
`-2.5`. -/
theorem store_twosComplement_fraction :
    let s : Store := ⟨[[7, 7, 7, 7, 7, 7]]⟩
    let w : Window := ⟨0, 1, 4⟩
    let a : Integral Window := .sized true .little (.ofInt 3)
    s.Holds w ∧ w.length ≤ maxLength ∧
      ∃ t, (a.store w (.number (.ofBits 0xC004000000000000)) (.ofInt 1)).run s = .ok 4 t ∧
        ((t.block 0)[1]?, (t.block 0)[2]?, (t.block 0)[3]?, (t.block 0)[4]?, (t.block 0)[5]?) =
          (some 7, some 0xFE, some 0xFF, some 0xFF, some 7) := by
  intro s w a
  let l : Layout := ⟨3, true, .little, by decide, by decide⟩
  let x : Binary64 := .ofBits 0xC004000000000000
  have hw : s.Holds w := by decide
  have hlength : w.length ≤ maxLength := by decide
  have hnone : ∀ v ∈ ([] : List Window), s.Holds v := by simp
  have hlies : a.LiesAt w.length (.ofInt 1) l 1 :=
    LiesAt.sized (l := l) (k := 1) (by decide) (Binary64.hasValue_ofInt (by decide))
      (Binary64.hasValue_ofInt (by decide)) (by decide)
  have htrunc : x.trunc = -2 := by decide +kernel
  have htakes : a.Takes l (.number x) (-2) :=
    ⟨fun n => nofun, x, rfl, htrunc ▸ .number (by decide) (by rw [htrunc]; decide)
      (by rw [htrunc]; decide)⟩
  obtain ⟨t, hrun, -, hbytes⟩ :=
    (@store_twosComplement s w a (.number x) (.ofInt 1) hw hlength hnone hnone hnone).2 l 1 (-2)
      hlies htakes
  refine ⟨hw, hlength, t, hrun, ?_⟩
  simp only [hbytes]
  decide +kernel

end

end Field.Integral

end Octets
