import Octets.Memory.Transcript
import Octets.Proofs.Access
import Octets.Proofs.Cutting

/-!
# Runs of the operations on text

Reading and writing text in the bytes of a window is what `Octets.Content.Transcript` says about
the bytes that the window shows.
-/

namespace Octets

open Octets.Action (outcome commit)

/-! ## Writing into bytes -/

namespace Encoding

/-- New bytes at the beginning of a slice. -/
theorem run_within_assign_zero {slice new : Bytes} (h : new.length ≤ slice.length) :
    (Action.within 0 new.length (Action.assign new)).run slice =
      .ok () (slice.overwrite 0 new) := by
  rw [Action.run_within_assign rfl, replaced_eq_ok (Nat.zero_le _) h rfl]
  rfl

theorem run_writeUtf8 (s : String) (slice : Bytes) :
    (writeUtf8 s).run slice =
      .ok (Text.Utf8.byteLength (Text.Utf8.fitting slice.length s.toList))
        (slice.overwrite 0 (Text.Utf8.encode (Text.Utf8.fitting slice.length s.toList))) := by
  let fit := Text.Utf8.fitting slice.length s.toList
  have hpart : part (Text.Utf8.encode s.toList) 0 (Text.Utf8.byteLength fit) =
      .ok (Text.Utf8.encode fit) := by
    rw [part_eq_ok (Nat.zero_le _) (by
      rw [Text.Utf8.length_encode]
      exact Text.Utf8.byteLength_fitting_le_byteLength _ _)]
    exact congrArg _ (Text.Utf8.take_encode_fitting s.toList slice.length)
  have hlen : (Text.Utf8.encode fit).length ≤ slice.length := by
    rw [Text.Utf8.length_encode]
    exact Text.Utf8.byteLength_fitting_le _ _
  have hwrite := run_within_assign_zero hlen
  rw [Text.Utf8.length_encode] at hwrite
  simp [writeUtf8, Text.Utf8.cut_encode, fit, hpart, hwrite]

/-- Outside utf8 the bytes of a text are cut. -/
theorem encodeInto_eq {e : Encoding} (he : e ≠ .utf8) (room : Nat) (s : String) :
    e.encodeInto room s =
      (e.encode s).map fun bytes => bytes.take (e.written bytes.length room) := by
  have hcut : ∀ bytes : Bytes, bytes.take room = bytes.take (min bytes.length room) := by
    intro bytes
    rw [Nat.min_comm, List.take_eq_take_min]
  cases e with
  | utf8 => exact absurd rfl he
  | utf16le =>
    simp only [encodeInto, encode, written, Except.map, if_true, Text.Utf16.length_encode]
    congr 1
    rw [List.take_eq_take_iff, Text.Utf16.length_encode]
    omega
  | latin1 => exact congrArg (Except.map · (encode .latin1 s)) (funext hcut)
  | ascii => exact congrArg (Except.map · (encode .ascii s)) (funext hcut)
  | base64 => exact congrArg (Except.map · (encode .base64 s)) (funext hcut)
  | base64url => exact congrArg (Except.map · (encode .base64url s)) (funext hcut)
  | hex => exact congrArg (Except.map · (encode .hex s)) (funext hcut)

theorem written_le (e : Encoding) (count room : Nat) :
    e.written count room ≤ count ∧ e.written count room ≤ room := by
  unfold written
  split <;> omega

/-- A slice with a text at its beginning, as far as the text fits, and the number of bytes of the
text that are in the slice. -/
def placed (e : Encoding) (s : String) (slice : Bytes) : Except Stop (Bytes × Nat) := do
  let new ← e.encodeInto slice.length s
  return (slice.overwrite 0 new, new.length)

theorem run_writeCut {e : Encoding} (he : e ≠ .utf8) (s : String) (slice : Bytes) :
    (e.writeCut s).run slice =
      commit slice (e.placed s slice) := by
  rw [placed, encodeInto_eq he, liftM_map_bind]
  simp only [writeCut]
  rw [EStateM.run_bind, EStateM.run_get]
  refine Action.run_bind_commit rfl fun bytes _ => ?_
  obtain ⟨hbytes, hslice⟩ := e.written_le bytes.length slice.length
  -- From here on only the two bounds of the count matter.
  generalize e.written bytes.length slice.length = count at *
  have hlen : (bytes.take count).length = count := by
    rw [List.length_take]
    omega
  have hpart : part bytes 0 count = .ok (bytes.take count) := part_eq_ok (Nat.zero_le _) hbytes
  have hfit : (bytes.take count).length ≤ slice.length := by omega
  have hwrite := run_within_assign_zero hfit
  rw [hlen] at hwrite
  simp [hpart, hwrite, hlen]

/-- Writing a text into a slice puts the bytes that fit at the beginning of the slice. -/
theorem run_writeInto (e : Encoding) (s : String) (slice : Bytes) :
    (e.writeInto s).run slice =
      commit slice (e.placed s slice) := by
  by_cases he : e = .utf8
  · subst he
    simp only [writeInto, run_writeUtf8, ← Text.Utf8.length_encode]
    rfl
  · have hcut : e.writeInto s = e.writeCut s := by cases e <;> first | rfl | exact absurd rfl he
    rw [hcut, run_writeCut he]

/-- What is written at the beginning of a slice is written where the slice begins. -/
theorem overwrite_written {e : Encoding} {text : String} {content slice new : Bytes}
    {start stop : Nat} (hslice : part content start stop = .ok slice)
    (hnew : e.encodeInto slice.length text = .ok new) :
    content.overwrite start (slice.overwrite 0 new) = content.overwrite start new := by
  have hfit := length_encodeInto_le hnew
  have hlen := length_of_part hslice
  obtain ⟨⟨hle, hstop⟩, rfl⟩ := part_eq_ok_iff.mp hslice
  exact Bytes.overwrite_overwrite_range hstop (by omega)

end Encoding

/-! ## Reading and writing in windows -/

namespace Content

variable {ω ω' : Type}

@[simp] theorem namedEncoding_map (f : ω → ω') (offset length encoding : Value ω) :
    (namedEncoding offset length encoding).map f =
      namedEncoding (offset.map f) (length.map f) (encoding.map f) := by
  simp only [namedEncoding, Value.isUndefined_map, Value.isText_map]
  repeat' split
  all_goals rfl

/-- The argument that names the encoding is one of the three. -/
theorem mem_buffers_namedEncoding {offset length encoding : Value ω} {w : ω}
    (h : w ∈ (namedEncoding offset length encoding).buffers) :
    w ∈ offset.buffers ++ length.buffers ++ encoding.buffers := by
  simp only [namedEncoding] at h
  repeat' split at h
  all_goals simp_all [Value.buffers]

end Content

namespace Window

open Store (length_read run_bind_settle)
open Octets.Action (run_bind_outcome)
open Value (run_ask)

variable {s : Store} {w : Window} {offset length encoding start stop : Value Window}

theorem run_toText (hw : s.Holds w) (he : ∀ v ∈ encoding.buffers, s.Holds v)
    (hstart : ∀ v ∈ start.buffers, s.Holds v) (hstop : ∀ v ∈ stop.buffers, s.Holds v) :
    (w.toText encoding start stop).run s =
      outcome (Content.toText (s.read w) (encoding.map s.read) (start.map s.read)
        (stop.map s.read)) s := by
  simp only [toText, Content.toText, length_read hw]
  refine run_bind_outcome (run_ask hstart _) fun x _ => ?_
  cases Content.textStart (Binary64.ofNat w.length) x with
  | none => rfl
  | some low =>
    refine run_bind_outcome (run_ask hstop _) fun high _ => ?_
    split
    · rfl
    · refine run_bind_outcome (run_ask he _) fun e _ => ?_
      rw [run_load_bind hw]
      exact run_bind_outcome rfl fun piece _ => rfl

theorem run_textPlace (total : Nat) (ho : ∀ v ∈ offset.buffers, s.Holds v)
    (hl : ∀ v ∈ length.buffers, s.Holds v) :
    (textPlace total offset length).run s =
      outcome (Content.textPlace total (offset.map s.read) (length.map s.read)) s := by
  simp only [textPlace, Content.textPlace, Value.isUndefined_map, Value.isText_map]
  split
  · rfl
  · refine run_bind_outcome (run_ask ho _) fun start _ => ?_
    refine run_bind_outcome rfl fun rest _ => ?_
    exact run_bind_outcome (run_ask hl _) fun room _ => rfl

theorem run_writeText (text : String) (hw : s.Holds w) (ho : ∀ v ∈ offset.buffers, s.Holds v)
    (hl : ∀ v ∈ length.buffers, s.Holds v) (he : ∀ v ∈ encoding.buffers, s.Holds v) :
    (w.writeText text offset length encoding).run s =
      s.settle w (Content.writeText (s.read w) text (offset.map s.read) (length.map s.read)
        (encoding.map s.read)) := by
  unfold writeText Content.writeText
  rw [length_read hw]
  refine run_bind_settle (run_textPlace w.length ho hl) fun (start, room) _ => ?_
  have hnamed : ∀ v ∈ (Content.namedEncoding offset length encoding).buffers, s.Holds v := by
    intro v hv
    have hmem := Content.mem_buffers_namedEncoding hv
    simp only [List.mem_append] at hmem
    rcases hmem with (hmem | hmem) | hmem
    · exact ho v hmem
    · exact hl v hmem
    · exact he v hmem
  rw [← Content.namedEncoding_map]
  refine run_bind_settle (run_ask hnamed _) fun e _ => ?_
  -- The bytes go to the beginning of a range of the window, which is to overwrite the window there.
  refine run_change hw ?_
  rw [Action.run_within_commit (Encoding.run_writeInto e text _)]
  refine congrArg _ ?_
  cases hslice : part (s.read w) start (start + room) with
  | error stop => rfl
  | ok slice =>
    cases hnew : e.encodeInto slice.length text with
    | error f => simp [Encoding.placed, hnew]
    | ok new => simp [Encoding.placed, hnew, Encoding.overwrite_written hslice hnew]

end Window

end Octets
