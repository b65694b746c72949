import Octets.Memory.Field
import Octets.Proofs.Access
import Octets.Proofs.Packing

/-!
# Runs of the operations on fields

Reading and writing numbers in the bytes of a window is what `Octets.Field` says about the bytes
that the window shows.
-/

namespace Octets.Window

open Octets.Action (outcome commit run_bind_outcome run_within run_within_assign)
open Store (length_read run_bind_settle)
open Value (run_ask)

variable {s : Store} {w : Window} {value offset width : Value Window}

/-! ## Integers -/

theorem run_readInteger (l : Layout) (hw : s.Holds w) (ho : ∀ v ∈ offset.buffers, s.Holds v) :
    (w.readInteger l offset).run s =
      outcome (Field.readInteger l (s.read w) (offset.map s.read)) s := by
  unfold readInteger Field.readInteger
  refine run_bind_outcome rfl fun _ _ => ?_
  rw [length_read hw]
  refine run_bind_outcome (run_ask ho _) fun start _ => ?_
  rw [run_load_bind hw]
  refine run_bind_outcome rfl fun field hfield => ?_
  rw [Word.unpack_eq]
  -- The field has the width of the layout, so its word has no more bits than the layout.
  have hlen : field.length = l.width := by rw [length_of_part hfield]; omega
  have hword := Word.ofBytes_lt l.order field
  rw [hlen, show 8 * l.width = l.bits from rfl] at hword
  have hpos := l.width_pos
  have hle := l.width_le
  cases hsigned : l.signed with
  | true =>
    rw [if_pos rfl, Word.signExtended_eq_ok (by unfold Layout.bits; omega)
      (by unfold Layout.bits; omega) hword]
    rfl
  | false => rfl

/-- A packed word replaces the bytes of a field of its width. -/
theorem run_within_pack (order : ByteOrder) (word start width : Nat) (content : Bytes) :
    (Action.within start (start + width) (Word.pack order word)).run content =
      commit content ((replaced content start (start + width)
        (Word.toBytes order width word)).map (·, ())) := by
  refine run_within (fun _ hlen => ?_) (by rw [Word.length_toBytes]; omega)
  rw [Word.run_pack, Bytes.length_range_add hlen]

theorem run_writeInteger (l : Layout) (hw : s.Holds w) (hv : ∀ v ∈ value.buffers, s.Holds v)
    (ho : ∀ v ∈ offset.buffers, s.Holds v) :
    (w.writeInteger l value offset).run s =
      s.settle w (Field.writeInteger l (s.read w) (value.map s.read) (offset.map s.read)) := by
  unfold writeInteger Field.writeInteger
  refine run_bind_settle rfl fun _ _ => ?_
  refine run_bind_settle (run_ask hv _) fun x _ => ?_
  refine run_bind_settle (run_ask ho _) fun _ _ => ?_
  refine run_bind_settle rfl fun n _ => ?_
  rw [length_read hw]
  refine run_bind_settle (run_ask ho _) fun start _ => ?_
  refine run_change_return hw ?_ _
  rw [run_within_pack, Word.toBytes_ofInt l.order l.width_le]
  rfl

theorem run_readSized (signed : Bool) (order : ByteOrder) (hw : s.Holds w)
    (ho : ∀ v ∈ offset.buffers, s.Holds v) (hwidth : ∀ v ∈ width.buffers, s.Holds v) :
    (w.readSized signed order offset width).run s =
      outcome (Field.readSized signed order (s.read w) (offset.map s.read) (width.map s.read))
        s := by
  unfold readSized Field.readSized
  refine run_bind_outcome (run_ask ho _) fun _ _ => ?_
  refine run_bind_outcome (run_ask hwidth _) fun l _ => ?_
  exact run_readInteger l hw ho

theorem run_writeSized (signed : Bool) (order : ByteOrder) (hw : s.Holds w)
    (hv : ∀ v ∈ value.buffers, s.Holds v) (ho : ∀ v ∈ offset.buffers, s.Holds v)
    (hwidth : ∀ v ∈ width.buffers, s.Holds v) :
    (w.writeSized signed order value offset width).run s =
      s.settle w (Field.writeSized signed order (s.read w) (value.map s.read) (offset.map s.read)
        (width.map s.read)) := by
  unfold writeSized Field.writeSized
  refine run_bind_settle (run_ask hwidth _) fun l _ => ?_
  refine run_bind_settle (run_ask ho _) fun _ _ => ?_
  exact run_writeInteger l hw hv ho

theorem run_readBig (signed : Bool) (order : ByteOrder) (hw : s.Holds w)
    (ho : ∀ v ∈ offset.buffers, s.Holds v) :
    (w.readBig signed order offset).run s =
      outcome (Field.readBig signed order (s.read w) (offset.map s.read)) s := by
  unfold readBig Field.readBig
  rw [length_read hw]
  refine run_bind_outcome (run_ask ho _) fun start _ => ?_
  rw [run_load_bind hw]
  refine run_bind_outcome rfl fun field _ => ?_
  rw [Word.unpack_eq]
  rfl

theorem run_writeBig (signed : Bool) (order : ByteOrder) (hw : s.Holds w)
    (hv : ∀ v ∈ value.buffers, s.Holds v) (ho : ∀ v ∈ offset.buffers, s.Holds v) :
    (w.writeBig signed order value offset).run s =
      s.settle w (Field.writeBig signed order (s.read w) (value.map s.read)
        (offset.map s.read)) := by
  unfold writeBig Field.writeBig
  refine run_bind_settle (run_ask hv _) fun n _ => ?_
  rw [length_read hw]
  refine run_bind_settle (run_ask ho _) fun start _ => ?_
  refine run_change_return hw ?_ _
  rw [run_within_pack]

/-! ## Numbers in a binary format -/

/-- The bytes of a field fit the place that they are copied to. -/
theorem run_fieldBytes (start width : Nat) (hw : s.Holds w) :
    (w.fieldBytes start width).run s = outcome (part (s.read w) start (start + width)) s := by
  unfold fieldBytes
  rw [run_load_bind hw, EStateM.run_bind, Action.run_liftM]
  cases hfield : part (s.read w) start (start + width) with
  | error stop => rfl
  | ok field =>
    have hlen := length_of_part hfield
    rw [Action.outcome_ok]
    simp only [copied_eq_ok (show field.length = width by omega)]
    rfl

theorem run_readSingle (order : ByteOrder) (hw : s.Holds w)
    (ho : ∀ v ∈ offset.buffers, s.Holds v) :
    (w.readSingle order offset).run s =
      outcome (Field.readSingle order (s.read w) (offset.map s.read)) s := by
  unfold readSingle Field.readSingle
  rw [length_read hw]
  refine run_bind_outcome (run_ask ho _) fun start _ => ?_
  exact run_bind_outcome (run_fieldBytes start 4 hw) fun field _ => rfl

theorem run_readDouble (order : ByteOrder) (hw : s.Holds w)
    (ho : ∀ v ∈ offset.buffers, s.Holds v) :
    (w.readDouble order offset).run s =
      outcome (Field.readDouble order (s.read w) (offset.map s.read)) s := by
  unfold readDouble Field.readDouble
  rw [length_read hw]
  refine run_bind_outcome (run_ask ho _) fun start _ => ?_
  exact run_bind_outcome (run_fieldBytes start 8 hw) fun field _ => rfl

theorem run_writeSingle (order : ByteOrder) (hw : s.Holds w)
    (hv : ∀ v ∈ value.buffers, s.Holds v) (ho : ∀ v ∈ offset.buffers, s.Holds v) :
    (w.writeSingle order value offset).run s =
      s.settle w (Field.writeSingle order (s.read w) (value.map s.read) (offset.map s.read)) := by
  unfold writeSingle Field.writeSingle
  refine run_bind_settle (run_ask hv _) fun x _ => ?_
  rw [length_read hw]
  refine run_bind_settle (run_ask ho _) fun start _ => ?_
  refine run_change_return hw (run_within_assign ?_) _
  rw [Word.length_toBytes]
  omega

theorem run_writeDouble (order : ByteOrder) (hw : s.Holds w)
    (hv : ∀ v ∈ value.buffers, s.Holds v) (ho : ∀ v ∈ offset.buffers, s.Holds v) :
    (w.writeDouble order value offset).run s =
      s.settle w (Field.writeDouble order (s.read w) (value.map s.read) (offset.map s.read)) := by
  unfold writeDouble Field.writeDouble
  refine run_bind_settle (run_ask hv _) fun x _ => ?_
  rw [length_read hw]
  refine run_bind_settle (run_ask ho _) fun start _ => ?_
  refine run_change_return hw (run_within_assign ?_) _
  rw [Word.length_toBytes]
  omega

end Octets.Window
