import Octets.Operation
import Octets.Proofs.Outcome

/-!
# Edits keep the number of bytes

Whatever an edit does to the bytes of a buffer, the buffer shows as many bytes as before. All
edits but the swap and the write of a byte overwrite a range of the bytes with as many new ones.
-/

namespace Octets

variable {content new : Bytes}

theorem length_of_replaced {start stop : Nat} {piece : Bytes}
    (h : replaced content start stop piece = .ok new) : new.length = content.length := by
  unfold replaced at h
  split at h
  · split at h
    · rw [← Except.ok.inj h, Bytes.length_overwrite (by omega)]
    · nomatch h
  · nomatch h

namespace Field

variable {value offset : Operand} {next : Nat}

theorem length_writeInteger {l : Layout}
    (h : writeInteger l content value offset = .ok (new, next)) :
    new.length = content.length := by
  simp only [writeInteger, bind_eq_ok] at h
  obtain ⟨_, _, _, _, _, _, _, _, _, _, written, hwritten, hpair⟩ := h
  cases hpair
  exact length_of_replaced hwritten

theorem length_writeSized {signed : Bool} {order : ByteOrder} {width : Operand}
    (h : writeSized signed order content value offset width = .ok (new, next)) :
    new.length = content.length := by
  simp only [writeSized, bind_eq_ok] at h
  obtain ⟨_, _, _, _, hwrite⟩ := h
  exact length_writeInteger hwrite

theorem length_writeBig {signed : Bool} {order : ByteOrder}
    (h : writeBig signed order content value offset = .ok (new, next)) :
    new.length = content.length := by
  simp only [writeBig, bind_eq_ok] at h
  obtain ⟨_, _, _, _, written, hwritten, hpair⟩ := h
  cases hpair
  exact length_of_replaced hwritten

theorem length_writeSingle {order : ByteOrder}
    (h : writeSingle order content value offset = .ok (new, next)) :
    new.length = content.length := by
  simp only [writeSingle, bind_eq_ok] at h
  obtain ⟨_, _, _, _, written, hwritten, hpair⟩ := h
  cases hpair
  exact length_of_replaced hwritten

theorem length_writeDouble {order : ByteOrder}
    (h : writeDouble order content value offset = .ok (new, next)) :
    new.length = content.length := by
  simp only [writeDouble, bind_eq_ok] at h
  obtain ⟨_, _, _, _, written, hwritten, hpair⟩ := h
  cases hpair
  exact length_of_replaced hwritten

theorem Shape.length_write {shape : Shape}
    (h : shape.write content value offset = .ok (new, next)) : new.length = content.length := by
  cases shape with
  | integer l => exact length_writeInteger h
  | bigInteger signed order => exact length_writeBig h
  | single order => exact length_writeSingle h
  | double order => exact length_writeDouble h

end Field

namespace Content

theorem length_setByte {index : Nat} {b : UInt8}
    (h : (liftM (setByte content index b) : Except Stop Bytes) = .ok new) :
    new.length = content.length := by
  unfold setByte at h
  split at h
  · rw [← Except.ok.inj h, List.length_set]
  · nomatch h

/-- The bytes of a text that are written fit in the slice. -/
theorem length_writeText {text : String} {offset length encoding : Operand} {count : Nat}
    (h : writeText content text offset length encoding = .ok (new, count)) :
    new.length = content.length := by
  simp only [writeText, bind_eq_ok, liftM_eq_ok_iff] at h
  obtain ⟨⟨start, room⟩, _, e, _, slice, hslice, bytes, hbytes, hpair⟩ := h
  cases hpair
  have hfit := Encoding.length_encodeInto_le hbytes
  have hlen := length_of_part hslice
  obtain ⟨⟨_, hstop⟩, _⟩ := part_eq_ok_iff.mp hslice
  exact Bytes.length_overwrite (by omega)

theorem length_fill {value offset stop encoding : Operand}
    (h : fill content value offset stop encoding = .ok new) : new.length = content.length := by
  simp only [fill, bind_eq_ok] at h
  obtain ⟨_, _, range, _, h⟩ := h
  cases range with
  | none =>
    cases h
    rfl
  | some range =>
    simp only [bind_eq_ok] at h
    obtain ⟨_, _, h⟩ := h
    exact length_of_replaced h

theorem length_swap {unit : SwapUnit}
    (h : (liftM (swap content unit) : Except Stop Bytes) = .ok new) :
    new.length = content.length := by
  unfold swap at h
  split at h
  · rw [← Except.ok.inj h, Bytes.length_reverseGroups]
  · nomatch h

theorem length_copyRange (source target : Bytes) (targetStart sourceStart sourceStop : Nat) :
    (copyRange source target targetStart sourceStart sourceStop).1.length = target.length := by
  unfold copyRange
  split
  · refine Bytes.length_overwrite ?_
    rw [List.length_take]
    omega
  · rfl

theorem length_copy {source target : Bytes} {targetStart sourceStart sourceStop : Operand}
    {count : Nat}
    (h : (liftM (copy source target targetStart sourceStart sourceStop) :
      Except Stop (Bytes × Nat)) = .ok (new, count)) : new.length = target.length := by
  simp only [copy, liftM_bind, bind_eq_ok] at h
  obtain ⟨ts, _, _, _, ss, _, _, _, se, _, _, _, h⟩ := h
  split at h
  · cases h
    rfl
  · have hlen := length_copyRange source target ts.toNat ss.toNat (min se source.length).toNat
    rw [liftM_pure] at h
    rwa [Except.ok.inj h] at hlen

end Content

namespace Edit

variable {reply : Reply}

/-- The new bytes of an edit with a count are those of the computation that gives the count. -/
theorem length_of_counted {r : Except Stop (Bytes × Nat)} {f : Nat → Reply}
    (h : (r >>= fun (new, count) => pure (new, f count)) = .ok (new, reply))
    (hr : ∀ {new count}, r = .ok (new, count) → new.length = content.length) :
    new.length = content.length := by
  obtain ⟨written, hwritten, hpair⟩ := bind_eq_ok.mp h
  cases hpair
  exact hr hwritten

/-- The new bytes of an edit without a count. -/
theorem length_of_uncounted {r : Except Stop Bytes}
    (h : (r >>= fun new => pure (new, Reply.nothing)) = .ok (new, reply))
    (hr : ∀ {new}, r = .ok new → new.length = content.length) : new.length = content.length := by
  obtain ⟨written, hwritten, hpair⟩ := bind_eq_ok.mp h
  cases hpair
  exact hr hwritten

/-- A buffer shows as many bytes after an edit as before. -/
theorem length_apply {e : Edit Bytes} (h : e.apply content = .ok (new, reply)) :
    new.length = content.length := by
  cases e with
  | setByte index b => exact length_of_uncounted h Content.length_setByte
  | writeField shape value offset => exact length_of_counted h Field.Shape.length_write
  | writeSized signed order value offset width => exact length_of_counted h Field.length_writeSized
  | writeText text offset length encoding => exact length_of_counted h Content.length_writeText
  | fill value offset stop encoding => exact length_of_uncounted h Content.length_fill
  | swap unit => exact length_of_uncounted h Content.length_swap
  | copy source ts ss se => exact length_of_counted h Content.length_copy
  | copyRange source ts ss se =>
    cases h
    exact Content.length_copyRange _ _ _ _ _

end Edit

end Octets
