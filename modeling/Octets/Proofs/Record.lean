import Octets.Proofs.Integral
import Octets.Proofs.Refinement
import Octets.Proofs.Single

/-!
# Records of fields

A record is a list of fields of any shape, written one after the other, each at the offset that the
write before it returned. The fields tile the record: every write succeeds, the last one returns
the end of the record, and afterwards each field is read back at its place.

* `Entry.write_eq_ok`, `Entry.read_eq_ok`: one field in the bytes of a window. What is written are
  `Entry.bytes`, and these bytes are read as the value that the field holds.
* `Entry.run_writeAll`: the record is written as one sequence of bytes, the bytes of its fields.
* `Entry.record_round_trip`: every field of the record is read back.
-/

namespace Octets

open Argument (StartsAt startsAt_ofNat)

/-- A field of a record, with the number that is written into it. -/
inductive Entry where
  | integer (l : Layout) (x : Binary64)
  | bigInteger (signed : Bool) (order : ByteOrder) (n : Int)
  | single (order : ByteOrder) (x : Binary64)
  | double (order : ByteOrder) (x : Binary64)

namespace Entry

/-! ## Fields and their values -/

/-- The shape of the field. -/
def shape : Entry → Field.Shape
  | .integer l _ => .integer l
  | .bigInteger signed order _ => .bigInteger signed order
  | .single order _ => .single order
  | .double order _ => .double order

/-- The argument that is written. -/
def value {ω : Type} : Entry → Value ω
  | .integer _ x => .number x
  | .bigInteger _ _ n => .bigInteger n
  | .single _ x => .number x
  | .double _ x => .number x

/-- The number of bytes of the field. -/
def width : Entry → Nat
  | .integer l _ => l.width
  | .bigInteger _ _ _ => 8
  | .single _ _ => 4
  | .double _ _ => 8

/-- The value is in the range of the field: an integer field of at most six bytes takes a finite
number that is in its range when it is rounded toward zero, and a field of a big integer takes one
in its range. A floating field takes every number. -/
def Valid : Entry → Prop
  | .integer l x =>
    l.width ≤ Field.maxNumberWidth ∧ x.isFinite = true ∧ l.min ≤ x.trunc ∧ x.trunc ≤ l.max
  | .bigInteger signed order n =>
    (Layout.int64 signed order).min ≤ n ∧ n ≤ (Layout.int64 signed order).max
  | .single _ _ => True
  | .double _ _ => True

instance : DecidablePred Valid
  | .integer _ _ => inferInstanceAs (Decidable (_ ∧ _ ∧ _ ∧ _))
  | .bigInteger _ _ _ => inferInstanceAs (Decidable (_ ∧ _))
  | .single _ _ => inferInstanceAs (Decidable True)
  | .double _ _ => inferInstanceAs (Decidable True)

/-- The field is read back as the reply: the number rounded toward zero, the same big integer, the
number rounded to the 32-bit format, the same number with the canonical one for all that are
none. -/
def ReadsBack : Entry → Reply → Prop
  | .integer _ x, reply => reply = .integer x.trunc
  | .bigInteger _ _ n, reply => reply = .bigInteger n
  | .single _ x, reply => ∃ y, Binary32.Rounded x y ∧ reply = .number y
  | .double _ x, reply => reply = .number x.canonical

/-- The bytes that are written. -/
def bytes : Entry → Bytes
  | .integer l x => Word.toBytes l.order l.width (Word.ofInt l.bits x.trunc)
  | .bigInteger _ order n => Word.toBytes order 8 (Word.ofInt 64 n)
  | .single order x => Word.toBytes order 4 (Binary32.narrow x)
  | .double order x => Word.toBytes order 8 x.bits

@[simp] theorem length_bytes (e : Entry) : e.bytes.length = e.width := by
  cases e <;> exact Word.length_toBytes _ _ _

@[simp] theorem value_map {ω ω' : Type} (f : ω → ω') (e : Entry) :
    (e.value : Value ω).map f = e.value := by
  cases e <;> rfl

@[simp] theorem buffers_value {ω : Type} (e : Entry) : (e.value : Value ω).buffers = [] := by
  cases e <;> rfl

/-! ## One field -/

section

variable {content : Bytes} {offset : Operand} {k : Nat}

/-- A value in the range of its field is written at the place of the field. -/
theorem write_eq_ok {e : Entry} (he : e.Valid) (hlength : content.length ≤ maxLength)
    (hstart : StartsAt offset k) (hroom : k + e.width ≤ content.length) :
    e.shape.write content e.value offset = .ok (content.overwrite k e.bytes, k + e.width) := by
  cases e with
  | integer l x =>
    obtain ⟨hwidth, hfinite, hmin, hmax⟩ := he
    exact (Field.writeInteger_eq_ok_iff hlength).mpr
      ⟨hwidth, x.trunc, ⟨x, rfl, .number hfinite hmin hmax⟩, k, hstart, hroom, rfl, rfl⟩
  | bigInteger signed order n =>
    have hwritten := (Field.write_place_eq_ok_iff hlength (Nat.le_refl 8)
      (Word.length_toBytes order 8 (Word.ofInt 64 n))).mpr ⟨k, hstart, hroom, rfl, rfl⟩
    have haccepted := Field.acceptedBig_eq_ok_iff.mpr ⟨rfl, he⟩
    exact bind_eq_ok.mpr ⟨n, liftM_eq_ok_iff.mpr haccepted, hwritten⟩
  | single order x =>
    have hwritten := (Field.write_place_eq_ok_iff hlength (Nat.le_add_right 4 4)
      (Word.length_toBytes order 4 (Binary32.narrow x))).mpr ⟨k, hstart, hroom, rfl, rfl⟩
    exact bind_eq_ok.mpr ⟨x, rfl, hwritten⟩
  | double order x =>
    have hwritten := (Field.write_place_eq_ok_iff hlength (Nat.le_refl 8)
      (Word.length_toBytes order 8 x.bits)).mpr ⟨k, hstart, hroom, rfl, rfl⟩
    exact bind_eq_ok.mpr ⟨x, rfl, hwritten⟩

/-- A word of the bits of a field is read back from the bytes of the field. -/
theorem ofBytes_toBytes_of_lt (order : ByteOrder) {width word : Nat} (h : word < 2 ^ (8 * width)) :
    Word.ofBytes order (Word.toBytes order width word) = word := by
  rw [Word.ofBytes_toBytes, Nat.mod_eq_of_lt]
  rwa [Nat.pow_mul] at h

/-- The bytes of a field are read as the value that it holds. -/
theorem read_eq_ok {e : Entry} (he : e.Valid) (hlength : content.length ≤ maxLength)
    (hstart : StartsAt offset k) (hroom : k + e.width ≤ content.length)
    (hbytes : content.range k (k + e.width) = e.bytes) :
    ∃ reply, e.shape.read content offset = .ok reply ∧ e.ReadsBack reply := by
  cases e with
  | integer l x =>
    obtain ⟨hwidth, hfinite, hmin, hmax⟩ := he
    have hread := (Field.readInteger_eq_ok_iff hlength).mpr ⟨hwidth, k, hstart, hroom, rfl⟩
    rw [show content.range k (k + l.width) = _ from hbytes, bytes,
      ofBytes_toBytes_of_lt l.order (Word.ofInt_lt l.bits x.trunc),
      Word.toInt_ofInt_layout l hmin hmax] at hread
    exact ⟨_, bind_eq_ok.mpr ⟨_, hread, rfl⟩, rfl⟩
  | bigInteger signed order n =>
    have hread : Field.readBig signed order content offset = .ok _ :=
      (Field.read_place_eq_ok_iff hlength (Nat.le_refl 8) _).mpr ⟨k, hstart, hroom, rfl⟩
    rw [show content.range k (k + 8) = _ from hbytes, bytes,
      ofBytes_toBytes_of_lt order (Word.ofInt_lt 64 n),
      show Word.toInt signed 64 (Word.ofInt 64 n) = n from
        Word.toInt_ofInt_layout (Layout.int64 signed order) he.1 he.2] at hread
    exact ⟨_, bind_eq_ok.mpr ⟨_, hread, rfl⟩, rfl⟩
  | single order x =>
    have hread : Field.readSingle order content offset = .ok _ :=
      (Field.read_place_eq_ok_iff hlength (Nat.le_add_right 4 4) _).mpr ⟨k, hstart, hroom, rfl⟩
    rw [show content.range k (k + 4) = _ from hbytes, bytes,
      ofBytes_toBytes_of_lt order (Binary32.narrow_lt x)] at hread
    exact ⟨_, bind_eq_ok.mpr ⟨_, hread, rfl⟩, _, Binary32.rounded_widen_narrow x, rfl⟩
  | double order x =>
    have hread : Field.readDouble order content offset = .ok _ :=
      (Field.read_place_eq_ok_iff hlength (Nat.le_refl 8) _).mpr ⟨k, hstart, hroom, rfl⟩
    rw [show content.range k (k + 8) = _ from hbytes, bytes,
      ofBytes_toBytes_of_lt order x.bits_lt, Binary64.ofBits_bits] at hread
    exact ⟨_, bind_eq_ok.mpr ⟨_, hread, rfl⟩, rfl⟩

end

/-! ## Records -/

/-- The number of bytes of a record. -/
def totalWidth (entries : List Entry) : Nat := (entries.map width).sum

/-- Write a record: each field at the offset that the write before it returned. -/
def writeAll (w : Window) : List Entry → Nat → Action Store Nat
  | [], k => pure k
  | e :: rest, k => do
    let next ← e.shape.store w e.value (.number (.ofNat k))
    writeAll w rest next

/-- The bytes of a record. -/
def allBytes (entries : List Entry) : Bytes := entries.flatMap bytes

theorem totalWidth_cons (e : Entry) (rest : List Entry) :
    totalWidth (e :: rest) = e.width + totalWidth rest := List.sum_cons

theorem allBytes_cons (e : Entry) (rest : List Entry) :
    allBytes (e :: rest) = e.bytes ++ allBytes rest := List.flatMap_cons

theorem length_allBytes (entries : List Entry) :
    (allBytes entries).length = totalWidth entries := by
  unfold allBytes
  rw [List.length_flatMap]
  exact congrArg List.sum (List.map_congr_left fun e _ => e.length_bytes)

variable {s : Store} {w : Window}

/-- A record is written as one sequence of bytes, and its end is returned. -/
theorem run_writeAll (hw : s.Holds w) (hlength : w.length ≤ maxLength) {entries : List Entry}
    {k : Nat} (hvalid : ∀ e ∈ entries, e.Valid) (hroom : k + totalWidth entries ≤ w.length) :
    (writeAll w entries k).run s =
      .ok (k + totalWidth entries)
        (s.write w ((s.read w).overwrite k (allBytes entries))) := by
  induction entries generalizing s k with
  | nil =>
    rw [show allBytes [] = [] from rfl, Bytes.overwrite_nil, s.write_read hw]
    rfl
  | cons e rest ih =>
    rw [List.forall_mem_cons] at hvalid
    rw [totalWidth_cons] at hroom ⊢
    have hread := Store.length_read hw
    have hrest := length_allBytes rest
    have hbytes := e.length_bytes
    have hfirst : ((s.read w).overwrite k e.bytes).length = w.length := by
      rw [Bytes.length_overwrite (by omega), hread]
    have hboth : ((s.read w).overwrite k (e.bytes ++ allBytes rest)).length = w.length := by
      rw [Bytes.length_overwrite (by rw [List.length_append]; omega), hread]
    -- The first write leaves the rest of the record to be written just after it.
    have hstore := @Field.Shape.run_store s w e.shape e.value (.number (.ofNat k)) hw (by simp)
      (by simp [Value.buffers])
    have hwrite : e.shape.write (s.read w) e.value (.number (.ofNat k)) =
        .ok ((s.read w).overwrite k e.bytes, k + e.width) :=
      write_eq_ok hvalid.1 (hread.trans_le hlength) (startsAt_ofNat (by omega)) (by omega)
    rw [value_map, Value.map, hwrite, Store.settle_ok] at hstore
    have hheld := (Store.Extends.write hw hfirst).holds hw
    rw [writeAll, EStateM.run_bind, hstore]
    refine (ih hheld hvalid.2 (by omega)).trans ?_
    rw [Store.read_write_self hw hfirst, allBytes_cons, ← hbytes,
      Bytes.overwrite_overwrite_append (by omega), hbytes, Store.write_write hw hfirst hboth,
      Nat.add_assoc]

/-- The bytes of a field of a record stand after those of the fields before it. -/
theorem range_allBytes {entries : List Entry} {i : Nat} {e : Entry} (h : entries[i]? = some e) :
    totalWidth (entries.take i) + e.width ≤ totalWidth entries ∧
      (allBytes entries).range (totalWidth (entries.take i))
        (totalWidth (entries.take i) + e.width) = e.bytes := by
  obtain ⟨hi, rfl⟩ := List.getElem?_eq_some_iff.mp h
  have hsplit : allBytes entries =
      allBytes (entries.take i) ++ (entries[i].bytes ++ allBytes (entries.drop (i + 1))) := by
    rw [← allBytes_cons, ← List.drop_eq_getElem_cons hi]
    unfold allBytes
    rw [← List.flatMap_append, List.take_append_drop]
  rw [← length_allBytes, ← length_allBytes, ← entries[i].length_bytes, hsplit]
  refine ⟨?_, Bytes.range_append_append _ _ _⟩
  simp only [List.length_append]
  omega

/-- A record of values that are in the range of their fields is written where there is room for it,
and every field of it is read back at its place: at the end of the fields before it. -/
theorem record_round_trip (hw : s.Holds w) (hlength : w.length ≤ maxLength)
    {entries : List Entry} {k : Nat} (hvalid : ∀ e ∈ entries, e.Valid)
    (hroom : k + totalWidth entries ≤ w.length) :
    ∃ t, (writeAll w entries k).run s = .ok (k + totalWidth entries) t ∧
      ∀ (i : Nat) (e : Entry), entries[i]? = some e →
        ∃ reply,
          (e.shape.load w (.number (.ofNat (k + totalWidth (entries.take i))))).run t =
            .ok reply t ∧ e.ReadsBack reply := by
  have hread := Store.length_read hw
  have hall := length_allBytes entries
  have hnew : ((s.read w).overwrite k (allBytes entries)).length = w.length := by
    rw [Bytes.length_overwrite (by omega), hread]
  refine ⟨_, run_writeAll hw hlength hvalid hroom, fun i e hget => ?_⟩
  obtain ⟨hinside, hrange⟩ := range_allBytes hget
  have hheld := (Store.Extends.write hw hnew).holds hw
  have hstart : StartsAt (.number (.ofNat (k + totalWidth (entries.take i))) : Operand)
      (k + totalWidth (entries.take i)) :=
    startsAt_ofNat (by omega)
  obtain ⟨reply, hreply, hback⟩ := read_eq_ok (hvalid e (List.mem_of_getElem? hget))
    (hnew.trans_le hlength) hstart (by omega)
    (by rw [Nat.add_assoc, Bytes.range_overwrite (by omega) (by omega), hrange])
  refine ⟨reply, ?_, hback⟩
  rw [e.shape.run_load hheld (by simp [Value.buffers]), Store.read_write_self hw hnew, Value.map,
    hreply, Action.outcome_ok]

/-- Four fields from the second byte of a window on: `-123.45` in three bytes, `-2` in eight, the
number nearest to `0.1` in four and a number that is none in eight. The third is read back as a
rounded number. -/
theorem record_round_trip_mixed :
    ∃ t, (writeAll ⟨0, 1, 24⟩
        [.integer ⟨3, true, .big, by decide, by decide⟩ (.ofBits 0xC05EDCCCCCCCCCCD),
          .bigInteger true .little (-2), .single .big (.ofBits 0x3FB999999999999A),
          .double .little (.ofBits 0xFFF0000000000001)] 1).run ⟨[List.replicate 25 7]⟩ = .ok 24 t ∧
      ∃ y, Binary32.Rounded (.ofBits 0x3FB999999999999A) y ∧
        ((Field.Shape.single .big).load ⟨0, 1, 24⟩ (.number (.ofNat 12))).run t =
          .ok (.number y) t := by
  obtain ⟨t, hrun, hread⟩ := @record_round_trip ⟨[List.replicate 25 7]⟩ ⟨0, 1, 24⟩ (by decide)
    (by decide)
    [.integer ⟨3, true, .big, by decide, by decide⟩ (.ofBits 0xC05EDCCCCCCCCCCD),
      .bigInteger true .little (-2), .single .big (.ofBits 0x3FB999999999999A),
      .double .little (.ofBits 0xFFF0000000000001)] 1 (by decide +kernel) (by decide)
  obtain ⟨reply, hload, y, hrounded, rfl⟩ := hread 2 _ rfl
  exact ⟨t, hrun, y, hrounded, hload⟩

end Entry

end Octets
