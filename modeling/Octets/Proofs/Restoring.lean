import Octets.Proofs.Integral
import Octets.Proofs.Refinement
import Octets.Proofs.Single

/-!
# Fields written back

Writing back what was read from a field changes nothing. What is read is always in the range of the
field, as a number it is exact, and it determines the bytes of the field. In a floating field that
is not so for the patterns that are not numbers, which are all read as one.

* `Field.Integral.write_read` — the fields of integers, on the bytes of a window;
* `Field.Shape.store_load` — fields of every shape, in a store.
-/

namespace Octets

open Argument (StartsAt)

namespace Word

variable {content : Bytes} {k width : Nat}

/-- The bytes of a field are those of its word. -/
theorem toBytes_ofBytes (order : ByteOrder) (field : Bytes) :
    toBytes order field.length (ofBytes order field) = field := by
  cases order with
  | big =>
    have h := littleBytes_ofLittle field.reverse
    rw [List.length_reverse] at h
    rw [toBytes, ofBytes, h, List.reverse_reverse]
  | little => exact littleBytes_ofLittle field

/-- Writing the word of a field into the field changes nothing. -/
theorem overwrite_toBytes_ofBytes (order : ByteOrder) (h : k + width ≤ content.length) :
    content.overwrite k (toBytes order width (ofBytes order (content.range k (k + width)))) =
      content := by
  have hfield := toBytes_ofBytes order (content.range k (k + width))
  rw [Bytes.length_range_add h] at hfield
  rw [hfield, Bytes.overwrite_range h (Nat.le_add_right k width)]

end Word

/-! ## Integers -/

namespace Layout

/-- The integer of a word is in the range of the layout. -/
theorem toInt_range (l : Layout) {word : Nat} (hword : word < 2 ^ l.bits) :
    l.min ≤ Word.toInt l.signed l.bits word ∧ Word.toInt l.signed l.bits word ≤ l.max := by
  have hbits : 0 < l.bits := Nat.mul_pos (by decide) l.width_pos
  unfold min max
  cases l.signed with
  | true =>
    obtain ⟨hlow, hhigh⟩ := Word.toInt_bounds hbits hword
    rw [if_pos rfl, if_pos rfl]
    exact ⟨hlow, Int.le_sub_one_of_lt hhigh⟩
  | false =>
    have hcast : (word : Int) < 2 ^ l.bits := by exact_mod_cast hword
    rw [if_neg Bool.false_ne_true, if_neg Bool.false_ne_true]
    exact ⟨Int.natCast_nonneg word, Int.le_sub_one_of_lt hcast⟩

/-- An integer in the range of a field that holds a number is written exactly. -/
theorem takes_ofInt {l : Layout} (hwidth : l.width ≤ Field.maxNumberWidth) {n : Int}
    (hmin : l.min ≤ n) (hmax : n ≤ l.max) : l.Takes (.ofInt n) n := by
  obtain ⟨hlow, -, -, hhigh⟩ := range_small hwidth
  have hvalue := @Binary64.hasValue_ofInt n (by unfold Binary64.IsSmall; omega)
  have htakes : l.Takes (.ofInt n) (Binary64.ofInt n).trunc :=
    .number hvalue.1 (by rwa [hvalue.trunc]) (by rwa [hvalue.trunc])
  rwa [hvalue.trunc] at htakes

end Layout

namespace Field.Integral

/-- The argument that writes an integer: in a field that holds a number, the number nearest to
it. -/
def argument {ω ω' : Type} (a : Integral ω) (n : Int) : Value ω' :=
  match a with
  | .fixed _ | .sized _ _ _ => .ofInt n
  | .big _ _ => .bigInteger n

/-- A field that lies somewhere takes every integer in its range. -/
theorem LiesAt.takes {ω : Type} {a : Integral ω} {offset : Value ω} {l : Layout} {length k : Nat}
    (h : a.LiesAt length offset l k) {n : Int} (hmin : l.min ≤ n) (hmax : n ≤ l.max) :
    a.Takes l (a.argument n) n := by
  cases h with
  | fixed hwidth => exact ⟨nofun, _, rfl, Layout.takes_ofInt hwidth hmin hmax⟩
  | sized hwidth => exact ⟨nofun, _, rfl, Layout.takes_ofInt hwidth hmin hmax⟩
  | big => exact ⟨rfl, hmin, hmax⟩

/-- The integer that is read from a field is written back at the same place, and nothing changes. -/
theorem write_read {a : Integral Bytes} {content : Bytes} {offset : Operand} {l : Layout} {k : Nat}
    (hlength : content.length ≤ maxLength) (h : a.LiesAt content.length offset l k) :
    ∃ v, a.read content offset = .ok v ∧
      a.write content (a.argument v) offset = .ok (content, k + l.width) := by
  have hroom := h.add_le
  have hword := Word.ofBytes_range_lt l.order hroom
  obtain ⟨hmin, hmax⟩ := l.toInt_range hword
  refine ⟨_, (read_eq_ok_iff hlength).mpr ⟨l, k, h, rfl⟩,
    (write_eq_ok_iff hlength).mpr ⟨l, k, _, h, h.takes hmin hmax, ?_, rfl⟩⟩
  rw [Layout.bits, Word.ofInt_toInt l.signed hword, Word.overwrite_toBytes_ofBytes l.order hroom]

end Field.Integral

/-! ## Fields of every shape -/

/-- The argument that writes back what was read: an integer as the number that is nearest to it. -/
def Reply.argument {ω : Type} : Reply → Value ω
  | .integer n => .ofInt n
  | .bigInteger n => .bigInteger n
  | .number x => .number x
  | _ => .undefined

@[simp] theorem Reply.buffers_argument {ω : Type} (reply : Reply) :
    (reply.argument : Value ω).buffers = [] := by
  cases reply <;> rfl

@[simp] theorem Reply.map_argument {ω ω' : Type} (f : ω → ω') (reply : Reply) :
    (reply.argument : Value ω).map f = reply.argument := by
  cases reply <;> rfl

namespace Field.Shape

/-- The number of bytes of the field. -/
def width : Shape → Nat
  | .integer l => l.width
  | .bigInteger _ _ => 8
  | .single _ => 4
  | .double _ => 8

/-- The bytes are those of a field that is determined by what is read from it: an integer field is
one that holds a number, and the pattern of a floating field is that of a number. -/
def Determined (shape : Shape) (field : Bytes) : Prop :=
  match shape with
  | .integer l => l.width ≤ maxNumberWidth
  | .bigInteger _ _ => True
  | .single order => Word.ofBytes order field % 0x80000000 ≤ Binary32.infinityRank
  | .double order => Word.ofBytes order field % 0x8000000000000000 ≤ Binary64.infinityRank

section

variable {shape : Shape} {content : Bytes} {offset : Operand} {width k : Nat}

/-- Writing the word that stands in a field at its place changes nothing. -/
theorem write_place_same (hlength : content.length ≤ maxLength) (hwidth : width ≤ 8)
    (hstart : StartsAt offset k) (hroom : k + width ≤ content.length) (order : ByteOrder)
    {word : Nat} (hword : word = Word.ofBytes order (content.range k (k + width))) :
    (do
      let start ← Argument.place offset content.length width
      let new ← replaced content start (start + width) (Word.toBytes order width word)
      return (new, start + width) : Except Stop (Bytes × Nat)) = .ok (content, k + width) :=
  (write_place_eq_ok_iff hlength hwidth (Word.length_toBytes ..)).mpr
    ⟨k, hstart, hroom, by rw [hword, Word.overwrite_toBytes_ofBytes order hroom], rfl⟩

/-- What is read from a field is written back at the same place, and nothing changes. -/
theorem write_read (hlength : content.length ≤ maxLength) (hstart : StartsAt offset k)
    (hroom : k + shape.width ≤ content.length)
    (hfield : shape.Determined (content.range k (k + shape.width))) :
    ∃ reply, shape.read content offset = .ok reply ∧
      shape.write content reply.argument offset = .ok (content, k + shape.width) := by
  cases shape with
  | integer l =>
    obtain ⟨v, hread, hwrite⟩ := Integral.write_read hlength (.fixed hfield hstart hroom)
    exact ⟨_, bind_eq_ok.mpr ⟨v, hread, rfl⟩, hwrite⟩
  | bigInteger signed order =>
    have hlies : (Integral.big signed order).LiesAt content.length offset _ k := .big hstart hroom
    obtain ⟨v, hread, hwrite⟩ := Integral.write_read hlength hlies
    exact ⟨_, bind_eq_ok.mpr ⟨v, hread, rfl⟩, hwrite⟩
  | single order =>
    have hword := Word.ofBytes_range_lt order hroom
    have hread : readSingle order content offset = .ok _ :=
      (read_place_eq_ok_iff hlength (Nat.le_add_right 4 4) _).mpr ⟨k, hstart, hroom, rfl⟩
    have hwrite := write_place_same hlength (Nat.le_add_right 4 4) hstart hroom order
      (Binary32.narrow_widen hword hfield)
    exact ⟨_, bind_eq_ok.mpr ⟨_, hread, rfl⟩, hwrite⟩
  | double order =>
    have hword := Word.ofBytes_range_lt order hroom
    have hread : readDouble order content offset = .ok _ :=
      (read_place_eq_ok_iff hlength (Nat.le_refl 8) _).mpr ⟨k, hstart, hroom, rfl⟩
    have hwrite := write_place_same hlength (Nat.le_refl 8) hstart hroom order
      (Binary64.bits_canonical_ofBits hword hfield)
    exact ⟨_, bind_eq_ok.mpr ⟨_, hread, rfl⟩, hwrite⟩

end

variable {s : Store} {w : Window} {shape : Shape} {offset : Value Window} {k : Nat}

/-- Reading a field and writing what was read at the same place leaves the store as it was: for
every integer field of up to six bytes, every field of a big integer, and every floating field whose
pattern is that of a number. -/
theorem store_load (hw : s.Holds w) (hlength : w.length ≤ maxLength) (hstart : StartsAt offset k)
    (hroom : k + shape.width ≤ w.length)
    (hfield : shape.Determined ((s.read w).range k (k + shape.width))) :
    ∃ reply, (shape.load w offset).run s = .ok reply s ∧
      (shape.store w reply.argument offset).run s = .ok (k + shape.width) s := by
  have hread := Store.length_read hw
  have hoffset : offset.buffers = [] := by cases hstart <;> rfl
  obtain ⟨reply, hreply, hwritten⟩ := write_read (hread.trans_le hlength)
    ((Argument.startsAt_map_iff s.read).mpr hstart) (hread ▸ hroom) hfield
  refine ⟨reply, ?_, ?_⟩
  · rw [shape.run_load hw (by simp [hoffset]), hreply, Action.outcome_ok]
  · rw [shape.run_store hw (by simp) (by simp [hoffset]), Reply.map_argument, hwritten,
      Store.settle_ok, s.write_read hw]

/-- The pattern is that of the negative number of the 32-bit format that is nearest to zero. -/
theorem store_load_subnormal :
    let s : Store := ⟨[[7, 7, 0x80, 0, 0, 1, 7]]⟩
    let w : Window := ⟨0, 1, 6⟩
    s.Holds w ∧ w.length ≤ maxLength ∧
      ∃ reply, ((Shape.single .big).load w (.ofInt 1)).run s = .ok reply s ∧
        ((Shape.single .big).store w reply.argument (.ofInt 1)).run s = .ok 5 s := by
  intro s w
  have hw : s.Holds w := by decide
  have hlength : w.length ≤ maxLength := by decide
  have hstart : StartsAt (.ofInt 1 : Value Window) 1 :=
    .number (@Binary64.hasValue_ofInt 1 (by decide))
  have hfield : (Shape.single .big).Determined ((s.read w).range 1 5) := by
    unfold Determined
    decide
  obtain ⟨reply, hload, hstore⟩ :=
    @store_load s w (.single .big) (.ofInt 1) 1 hw hlength hstart (by decide) hfield
  exact ⟨hw, hlength, reply, hload, hstore⟩

end Field.Shape

end Octets
