import Octets.Operation
import Octets.Proofs.Position

/-!
# Operations without traps

The computations that may trap stand behind checks. As long as a buffer shows at most `maxLength`
bytes, these checks let nothing pass that traps: the range of a field, of a text, of a comparison
or of a fill lies in the bytes, and no difference of counts is below zero. The arguments are
arbitrary.
-/

namespace Octets

variable {α β : Type} {content : Bytes}

/-- A computation that does not trap: it ends in a result or in a fault. -/
def NoTrap (r : Except Stop α) : Prop := ∀ t, r ≠ .error (.trap t)

namespace NoTrap

theorem ok (a : α) : NoTrap (.ok a) := fun _ h => nomatch h

theorem fault (f : Fault) : NoTrap (.error (.fault f) : Except Stop α) := fun _ h => nomatch h

theorem lift (r : Except Fault α) : NoTrap (liftM r) := by
  cases r with
  | ok a => exact ok a
  | error f => exact fault f

/-- A sequence does not trap if what follows a result does not. -/
theorem bind {r : Except Stop α} {k : α → Except Stop β} (hr : NoTrap r)
    (hk : ∀ a, r = .ok a → NoTrap (k a)) : NoTrap (r >>= k) := by
  cases r with
  | ok a => exact hk a rfl
  | error stop =>
    intro t h
    cases h
    exact hr t rfl

/-- A check, and then what does not trap where the check lets it pass. -/
theorem check {r : Except Fault α} {k : α → Except Stop β} (hk : ∀ a, r = .ok a → NoTrap (k a)) :
    NoTrap (liftM r >>= k) := by
  cases r with
  | ok a => exact hk a rfl
  | error f => exact fault f

/-- An answer that is computed from a result. -/
theorem andThen {r : Except Stop α} (hr : NoTrap r) (f : α → β) :
    NoTrap (r >>= fun a => pure (f a)) :=
  hr.bind fun a _ => ok (f a)

end NoTrap

/-! ## Fields -/

namespace Field

variable {value offset width : Operand} {start size : Nat}

/-- The bytes of a field at its place. -/
theorem noTrap_field (hsize : size ≤ 8) (hlength : content.length ≤ maxLength)
    (h : Argument.place offset content.length size = .ok start) (k : Bytes → β) :
    NoTrap (part content start (start + size) >>= fun field => pure (k field)) := by
  have hroom := Argument.place_add_le hlength hsize h
  rw [part_eq_ok (Nat.le_add_right _ _) hroom]
  exact .ok _

/-- The bytes with new ones in a field at its place. -/
theorem noTrap_replaced {new : Bytes} (hnew : new.length = size) (hsize : size ≤ 8)
    (hlength : content.length ≤ maxLength)
    (h : Argument.place offset content.length size = .ok start) (k : Bytes → β) :
    NoTrap (replaced content start (start + size) new >>= fun new => pure (k new)) := by
  have hroom := Argument.place_add_le hlength hsize h
  rw [replaced_eq_ok (Nat.le_add_right _ _) hroom (by omega)]
  exact .ok _

theorem width_le {l : Layout} {u : Unit} (h : checkWidth l = .ok u) : l.width ≤ 8 := by
  have hmost : maxNumberWidth = 6 := rfl
  unfold checkWidth refuse at h
  split at h
  · nomatch h
  · omega

theorem noTrap_readInteger (l : Layout) (offset : Operand) (hlength : content.length ≤ maxLength) :
    NoTrap (readInteger l content offset) :=
  .check fun _ hwidth => .check fun _ hstart =>
    noTrap_field (width_le hwidth) hlength hstart _

theorem noTrap_writeInteger (l : Layout) (value offset : Operand)
    (hlength : content.length ≤ maxLength) : NoTrap (writeInteger l content value offset) :=
  .check fun _ hwidth => .check fun _ _ => .check fun _ _ => .check fun _ _ =>
    .check fun _ hstart =>
      noTrap_replaced (Word.length_toBytes _ _ _) (width_le hwidth) hlength hstart _

theorem noTrap_readSized (signed : Bool) (order : ByteOrder) (offset width : Operand)
    (hlength : content.length ≤ maxLength) :
    NoTrap (readSized signed order content offset width) :=
  .check fun _ _ => .check fun l _ => noTrap_readInteger l offset hlength

theorem noTrap_writeSized (signed : Bool) (order : ByteOrder) (value offset width : Operand)
    (hlength : content.length ≤ maxLength) :
    NoTrap (writeSized signed order content value offset width) :=
  .check fun l _ => .check fun _ _ => noTrap_writeInteger l value offset hlength

theorem noTrap_readBig (signed : Bool) (order : ByteOrder) (offset : Operand)
    (hlength : content.length ≤ maxLength) : NoTrap (readBig signed order content offset) :=
  .check fun _ hstart => noTrap_field (by decide) hlength hstart _

theorem noTrap_writeBig (signed : Bool) (order : ByteOrder) (value offset : Operand)
    (hlength : content.length ≤ maxLength) :
    NoTrap (writeBig signed order content value offset) :=
  .check fun _ _ => .check fun _ hstart =>
    noTrap_replaced (Word.length_toBytes _ _ _) (by decide) hlength hstart _

theorem noTrap_readSingle (order : ByteOrder) (offset : Operand)
    (hlength : content.length ≤ maxLength) : NoTrap (readSingle order content offset) :=
  .check fun _ hstart => noTrap_field (by decide) hlength hstart _

theorem noTrap_readDouble (order : ByteOrder) (offset : Operand)
    (hlength : content.length ≤ maxLength) : NoTrap (readDouble order content offset) :=
  .check fun _ hstart => noTrap_field (by decide) hlength hstart _

theorem noTrap_writeSingle (order : ByteOrder) (value offset : Operand)
    (hlength : content.length ≤ maxLength) : NoTrap (writeSingle order content value offset) :=
  .check fun _ _ => .check fun _ hstart =>
    noTrap_replaced (Word.length_toBytes _ _ _) (by decide) hlength hstart _

theorem noTrap_writeDouble (order : ByteOrder) (value offset : Operand)
    (hlength : content.length ≤ maxLength) : NoTrap (writeDouble order content value offset) :=
  .check fun _ _ => .check fun _ hstart =>
    noTrap_replaced (Word.length_toBytes _ _ _) (by decide) hlength hstart _

theorem Shape.noTrap_read (shape : Shape) (offset : Operand)
    (hlength : content.length ≤ maxLength) : NoTrap (shape.read content offset) := by
  cases shape with
  | integer l => exact (noTrap_readInteger l offset hlength).andThen _
  | bigInteger signed order => exact (noTrap_readBig signed order offset hlength).andThen _
  | single order => exact (noTrap_readSingle order offset hlength).andThen _
  | double order => exact (noTrap_readDouble order offset hlength).andThen _

theorem Shape.noTrap_write (shape : Shape) (value offset : Operand)
    (hlength : content.length ≤ maxLength) : NoTrap (shape.write content value offset) := by
  cases shape with
  | integer l => exact noTrap_writeInteger l value offset hlength
  | bigInteger signed order => exact noTrap_writeBig signed order value offset hlength
  | single order => exact noTrap_writeSingle order value offset hlength
  | double order => exact noTrap_writeDouble order value offset hlength

end Field

/-! ## Texts, fills and comparisons -/

namespace Content

theorem noTrap_toText (encoding start stop : Operand) (hlength : content.length ≤ maxLength) :
    NoTrap (toText content encoding start stop) := by
  refine .check fun x _ => ?_
  cases hlow : textStart (.ofNat content.length) x with
  | none => exact .ok _
  | some low =>
    refine .check fun high hhigh => ?_
    split
    · exact .ok _
    · rename_i hlt
      refine .check fun e _ => ?_
      obtain ⟨hle, hstop⟩ := text_range hlength hlow hhigh (by simpa using hlt)
      rw [part_eq_ok hle hstop]
      exact .ok _

/-- The room for a text is at most what is left. -/
theorem room_le {total rest count : Nat} {length : Operand}
    (h : (liftM (room total rest length) : Except Stop Nat) = .ok count) : count ≤ rest := by
  rw [liftM_eq_ok_iff, room.eq_def] at h
  split at h
  · cases h
    exact Nat.le_refl _
  · cases h
    exact Nat.le_refl _
  · obtain ⟨n, _, rfl⟩ := map_eq_ok.mp h
    exact Nat.min_le_right n rest

/-- A text is written into a range of the bytes. -/
theorem textPlace_le {total start room : Nat} {offset length : Operand}
    (h : textPlace total offset length = .ok (start, room)) : start + room ≤ total := by
  unfold textPlace at h
  split at h
  · cases h
    omega
  · simp only [bind_eq_ok] at h
    obtain ⟨first, _, rest, hrest, count, hcount, hpair⟩ := h
    cases hpair
    have hle := room_le hcount
    obtain ⟨hfirst, rfl⟩ := difference_eq_ok_iff.mp hrest
    omega

theorem noTrap_textPlace {total : Nat} (offset length : Operand) (htotal : total ≤ maxLength) :
    NoTrap (textPlace total offset length) := by
  unfold textPlace
  split
  · exact .ok _
  · refine .check fun start hstart => ?_
    rw [difference_eq_ok (Argument.position_le htotal hstart)]
    exact .check fun room _ => .ok _

theorem noTrap_writeText (text : String) (offset length encoding : Operand)
    (hlength : content.length ≤ maxLength) :
    NoTrap (writeText content text offset length encoding) := by
  refine (noTrap_textPlace offset length hlength).bind fun (start, room) hplace => ?_
  refine .check fun e _ => ?_
  rw [part_eq_ok (Nat.le_add_right _ _) (textPlace_le hplace)]
  exact .check fun _ _ => .ok _

/-- A fill is of a range of the bytes. -/
theorem fillRange_le {length first last : Nat} {offset stop : Operand}
    (hlength : length ≤ maxLength)
    (h : fillRange length offset stop = .ok (some (first, last))) :
    first ≤ last ∧ last ≤ length := by
  unfold fillRange at h
  split at h
  · cases h
    exact ⟨Nat.zero_le _, Nat.le_refl _⟩
  · simp only [bind_eq_ok] at h
    obtain ⟨start, _, stop, hstop, h⟩ := h
    -- The start may be anywhere up to `maxLength`; only the end is checked against the length.
    have hle := Argument.positionOr_le hlength (Nat.le_refl _) hstop
    by_cases hempty : stop ≤ start
    · rw [if_pos hempty] at h
      cases h
    · rw [if_neg hempty] at h
      cases h
      omega

theorem noTrap_fill (value offset stop encoding : Operand) (hlength : content.length ≤ maxLength) :
    NoTrap (fill content value offset stop encoding) := by
  refine .check fun p _ => .check fun range hrange => ?_
  cases range with
  | none => exact .ok _
  | some range =>
    obtain ⟨first, last⟩ := range
    obtain ⟨hle, hlast⟩ := fillRange_le hlength hrange
    refine .check fun _ _ => ?_
    rw [replaced_eq_ok hle hlast (length_repeated _ _)]
    exact .ok _

theorem noTrap_compareRange {target : Bytes} (ts te ss se : Operand)
    (hsource : content.length ≤ maxLength) (htarget : target.length ≤ maxLength) :
    NoTrap (compareRange content target ts te ss se) := by
  refine .check fun tstart _ => .check fun tstop htstop => ?_
  refine .check fun sstart _ => .check fun sstop hsstop => ?_
  have htle := Argument.positionOr_le htarget (Nat.le_refl _) htstop
  have hsle := Argument.positionOr_le hsource (Nat.le_refl _) hsstop
  split
  · exact .ok _
  · split
    · exact .ok _
    · -- Both ranges end after they start here, and they end inside of the bytes.
      refine .check fun _ _ => .check fun _ _ => ?_
      rw [difference_eq_ok (by omega), difference_eq_ok (by omega), difference_eq_ok (by omega)]
      simp only [ok_bind, orderPieces]
      rw [part_eq_ok (Nat.le_add_right _ _) (by omega),
        part_eq_ok (Nat.le_add_right _ _) (by omega)]
      exact .ok _

end Content

/-! ## Queries and edits -/

theorem Query.noTrap_answer (q : Query Bytes) (hlength : content.length ≤ maxLength)
    (hq : ∀ other ∈ q.buffers, other.length ≤ maxLength) : NoTrap (q.answer content) := by
  cases q with
  | byteAt index => exact (NoTrap.lift _).andThen _
  | readField shape offset => exact shape.noTrap_read offset hlength
  | readSized signed order offset width =>
    exact (Field.noTrap_readSized signed order offset width hlength).andThen _
  | toText encoding start stop =>
    exact (Content.noTrap_toText encoding start stop hlength).andThen _
  | indexOf needle position encoding d => exact (NoTrap.lift _).andThen _
  | includes needle position encoding => exact (NoTrap.lift _).andThen _
  | compare other => exact .ok _
  | equals other => exact .ok _
  | compareRange target ts te ss se =>
    have htarget := hq target (by simp [buffers])
    exact (Content.noTrap_compareRange ts te ss se hlength htarget).andThen _

theorem Edit.noTrap_apply (e : Edit Bytes) (hlength : content.length ≤ maxLength) :
    NoTrap (e.apply content) := by
  cases e with
  | setByte index b => exact (NoTrap.lift _).andThen _
  | writeField shape value offset => exact (shape.noTrap_write value offset hlength).andThen _
  | writeSized signed order value offset width =>
    exact (Field.noTrap_writeSized signed order value offset width hlength).andThen _
  | writeText text offset length encoding =>
    exact (Content.noTrap_writeText text offset length encoding hlength).andThen _
  | fill value offset stop encoding =>
    exact (Content.noTrap_fill value offset stop encoding hlength).andThen _
  | swap unit => exact (NoTrap.lift _).andThen _
  | copy source ts ss se => exact (NoTrap.lift _).andThen _
  | copyRange source ts ss se => exact .ok _

end Octets
