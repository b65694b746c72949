import Mathlib.Order.Bounds.Basic
import Octets.Proofs.Position
import Octets.Proofs.Transcript

/-!
# What is written of a text

A text that is written goes into the room that there is for it: as many of its bytes as there is
room for, but in utf8 no part of a character and in utf16le no part of a unit. Nothing else in the
store changes. Where the room is and what names the encoding is said once (`Content.Placed`), for
the five shapes that the arguments of a write can have.

* `Encoding.encodeInto_eq_ok_iff` — what is written is the greatest number of bytes that may be;
* `Content.Placed.of_textPlace`, `Content.Placed.eq_ok` — the place, the room and the name of the
  encoding;
* `Window.writeText_greatest` — both together, byte for byte in the store.
-/

namespace Octets

/-! ## The longest beginning that fits -/

namespace Text.Utf8

/-- The characters that fit are a beginning of the text. -/
theorem fitting_isPrefix (limit : Nat) (text : List Char) : fitting limit text <+: text := by
  rcases fitting_cases limit text with ⟨hall, -⟩ | ⟨c, rest, htext, -, -⟩
  · exact ⟨[], by rw [hall, List.append_nil]⟩
  · exact ⟨c :: rest, htext.symm⟩

/-- A beginning of a text that fits is not longer than the characters that fit. -/
theorem byteLength_le_fitting {first text : List Char} {limit : Nat} (hfirst : first <+: text)
    (hfit : byteLength first ≤ limit) : byteLength first ≤ byteLength (fitting limit text) := by
  induction text generalizing first limit with
  | nil =>
    obtain rfl := List.prefix_nil.mp hfirst
    exact Nat.zero_le _
  | cons c rest ih =>
    cases first with
    | nil => exact Nat.zero_le _
    | cons d first =>
      obtain ⟨rfl, htail⟩ := List.cons_prefix_cons.mp hfirst
      simp only [byteLength] at hfit
      have hrest := @ih first (limit - width d) htail (by omega)
      rw [fitting, if_pos (by omega)]
      simp only [byteLength]
      omega

end Text.Utf8

namespace Encoding

open Text

variable {e : Encoding} {text : String} {room count : Nat} {new : Bytes}

/-- No character of utf8 and no unit of utf16le is cut where the bytes of the text end after `m`
bytes. -/
def EndsWhole (e : Encoding) (text : String) (m : Nat) : Prop :=
  match e with
  | .utf8 => ∃ first, first <+: text.toList ∧ (Utf8.encode first).length = m
  | .utf16le => m % 2 = 0
  | _ => True

/-- The characters that fit are the most that may be written in utf8. -/
theorem isGreatest_fitting (text : String) (room : Nat) :
    IsGreatest {m | m ≤ min room (Utf8.encode text.toList).length ∧ Encoding.utf8.EndsWhole text m}
      (Utf8.byteLength (Utf8.fitting room text.toList)) := by
  have hroom := Utf8.byteLength_fitting_le room text.toList
  have hbytes := Utf8.byteLength_fitting_le_byteLength text.toList room
  rw [← Utf8.length_encode text.toList] at hbytes
  constructor
  · exact ⟨Nat.le_min.mpr ⟨hroom, hbytes⟩, Utf8.fitting room text.toList,
      Utf8.fitting_isPrefix room text.toList, Utf8.length_encode _⟩
  · intro m hm
    obtain ⟨hle, first, hfirst, rfl⟩ := hm
    rw [Utf8.length_encode] at hle ⊢
    exact Utf8.byteLength_le_fitting hfirst (Nat.le_min.mp hle).1

/-- Outside utf8 the room and the number of bytes alone say how many bytes are written. -/
theorem isGreatest_written (he : e ≠ .utf8) (text : String) (count room : Nat) :
    IsGreatest {m | m ≤ min room count ∧ e.EndsWhole text m} (e.written count room) := by
  have hcut : e ≠ .utf16le → (∀ m, e.EndsWhole text m) →
      IsGreatest {m | m ≤ min room count ∧ e.EndsWhole text m} (e.written count room) := by
    intro hunits hends
    rw [written, if_neg hunits, Nat.min_comm]
    exact ⟨⟨Nat.le_refl _, hends _⟩, fun m hm => hm.1⟩
  cases e with
  | utf8 => exact absurd rfl he
  | utf16le =>
    rw [written, if_pos rfl, Nat.min_comm]
    constructor
    · exact ⟨Nat.div_mul_le_self _ 2, Nat.mul_mod_left _ 2⟩
    · intro m hm
      obtain ⟨hle, heven⟩ := hm
      have heven : m % 2 = 0 := heven
      omega
  | _ => exact hcut (by decide) fun _ => trivial

/-- As many bytes of an encoded text are written as may be. -/
theorem exists_isGreatest {bytes : Bytes} (room : Nat) (h : e.encode text = .ok bytes) :
    ∃ n, IsGreatest {m | m ≤ min room bytes.length ∧ e.EndsWhole text m} n ∧
      e.encodeInto room text = .ok (bytes.take n) := by
  by_cases he : e = .utf8
  · subst he
    obtain rfl : Utf8.encode text.toList = bytes := Except.ok.inj h
    exact ⟨_, isGreatest_fitting text room,
      congrArg Except.ok (Utf8.take_encode_fitting text.toList room).symm⟩
  · refine ⟨_, isGreatest_written he text bytes.length room, ?_⟩
    rw [encodeInto_eq he, h]
    rfl

/-- What is written of a text is the greatest number of its bytes that may be. -/
theorem encodeInto_eq_ok_iff :
    e.encodeInto room text = .ok new ↔
      ∃ bytes n, e.encode text = .ok bytes ∧
        IsGreatest {m | m ≤ min room bytes.length ∧ e.EndsWhole text m} n ∧ new = bytes.take n := by
  constructor
  · intro h
    cases hencode : e.encode text with
    | error f =>
      have hne : e ≠ .utf8 := by
        rintro rfl
        cases hencode
      rw [encodeInto_eq hne, hencode] at h
      cases h
    | ok bytes =>
      obtain ⟨n, hn, hinto⟩ := exists_isGreatest room hencode
      exact ⟨bytes, n, rfl, hn, Except.ok.inj (h.symm.trans hinto)⟩
  · intro h
    obtain ⟨bytes, n, hencode, hn, rfl⟩ := h
    obtain ⟨n', hn', hinto⟩ := exists_isGreatest room hencode
    rw [hinto, hn.unique hn']

end Encoding

/-! ## The place of a text -/

namespace Content

variable {content new : Bytes} {text : String} {offset length encoding name : Operand}
  {total start count n : Nat}

/-- Where a text is written among `total` bytes, the room for it and the argument that names its
encoding, by the shapes of the offset and of the length. -/
inductive Placed (total : Nat) (encoding : Operand) :
    Operand → Operand → Nat → Nat → Operand → Prop where
  /-- Without an offset, the whole bytes, in utf8. -/
  | whole (length : Operand) : Placed total encoding .undefined length 0 total .undefined
  /-- The encoding in the place of the offset. -/
  | named (e : String) : Placed total encoding (.text e) .undefined 0 total (.text e)
  /-- All that is behind the offset. -/
  | rest {x : Binary64} {start : Nat} (hx : x.HasValue start) (hstart : start ≤ total) :
    Placed total encoding (.number x) .undefined start (total - start) encoding
  /-- The encoding in the place of the length. -/
  | restNamed {x : Binary64} {start : Nat} (hx : x.HasValue start) (hstart : start ≤ total)
    (e : String) : Placed total encoding (.number x) (.text e) start (total - start) (.text e)
  /-- As many bytes behind the offset as the length says and there are. -/
  | bounded {x y : Binary64} {start limit : Nat} (hx : x.HasValue start) (hstart : start ≤ total)
    (hy : y.HasValue limit) (hlimit : limit ≤ total) :
    Placed total encoding (.number x) (.number y) start (min limit (total - start)) encoding

theorem Placed.add_le (h : Placed total encoding offset length start count name) :
    start + count ≤ total := by
  cases h <;> omega

/-- No more bytes may be written than there are, and they end in the room. -/
theorem Placed.le_of_isGreatest {e : Encoding} {bytes : Bytes}
    (h : Placed total encoding offset length start count name)
    (hn : IsGreatest {m | m ≤ min count bytes.length ∧ e.EndsWhole text m} n) :
    n ≤ bytes.length ∧ start + n ≤ total := by
  obtain ⟨hcount, hbytes⟩ := Nat.le_min.mp hn.1.1
  have hroom := h.add_le
  exact ⟨hbytes, by omega⟩

/-- A number in the place of the length is a bound for the room. -/
theorem room_number_eq_ok_iff {rest : Nat} {y : Binary64} (htotal : total ≤ maxLength) :
    room total rest (.number y) = .ok count ↔
      ∃ limit : Nat, y.HasValue limit ∧ limit ≤ total ∧ count = min limit rest := by
  simp only [room, map_eq_ok]
  constructor
  · intro h
    obtain ⟨limit, hposition, rfl⟩ := h
    obtain ⟨_, hnumber, hy, hle⟩ := (Argument.position_eq_ok_iff htotal).mp hposition
    cases hnumber
    exact ⟨limit, hy, hle, rfl⟩
  · intro h
    obtain ⟨limit, hy, hle, rfl⟩ := h
    exact ⟨limit, (Argument.position_eq_ok_iff htotal).mpr ⟨y, rfl, hy, hle⟩, rfl⟩

/-- The place of a text behind an offset. -/
theorem textPlace_eq_ok {x : Binary64} (htotal : total ≤ maxLength) (hx : x.HasValue start)
    (hstart : start ≤ total) (hroom : room total (total - start) length = .ok count) :
    textPlace total (.number x) length = .ok (start, count) := by
  have hposition : Argument.position (.number x) "offset" total = .ok start :=
    (Argument.position_eq_ok_iff htotal).mpr ⟨x, rfl, hx, hstart⟩
  simp [textPlace, Value.isUndefined, Value.isText, hposition, difference_eq_ok hstart, hroom]

/-- A text that has a place has it by one of the five shapes. -/
theorem Placed.of_textPlace (htotal : total ≤ maxLength) (encoding : Operand)
    (h : textPlace total offset length = .ok (start, count)) :
    Placed total encoding offset length start count (namedEncoding offset length encoding) := by
  unfold textPlace at h
  split at h
  · rename_i hwhole
    cases h
    cases offset with
    | undefined => exact .whole length
    | text e =>
      cases length with
      | undefined => exact .named e
      | _ => cases hwhole
    | _ => cases length <;> cases hwhole
  · simp only [bind_eq_ok, liftM_eq_ok_iff, difference_eq_ok_iff] at h
    obtain ⟨first, hfirst, rest, ⟨hle, rfl⟩, count, hroom, hpair⟩ := h
    obtain ⟨x, rfl, hx, -⟩ := (Argument.position_eq_ok_iff htotal).mp hfirst
    cases hpair
    cases length with
    | undefined =>
      cases hroom
      exact .rest hx hle
    | text e =>
      cases hroom
      exact .restNamed hx hle e
    | number y =>
      obtain ⟨limit, hy, hlimit, rfl⟩ := (room_number_eq_ok_iff htotal).mp hroom
      exact .bounded hx hle hy hlimit
    | _ => cases hroom

/-- Arguments of the five shapes place the text, and name its encoding, as the shape says. -/
theorem Placed.eq_ok (htotal : total ≤ maxLength)
    (h : Placed total encoding offset length start count name) :
    textPlace total offset length = .ok (start, count) ∧
      namedEncoding offset length encoding = name := by
  cases h with
  | whole => exact ⟨rfl, rfl⟩
  | named e => exact ⟨rfl, rfl⟩
  | rest hx hstart => exact ⟨textPlace_eq_ok htotal hx hstart rfl, rfl⟩
  | restNamed hx hstart e => exact ⟨textPlace_eq_ok htotal hx hstart rfl, rfl⟩
  | bounded hx hstart hy hlimit =>
    refine ⟨textPlace_eq_ok htotal hx hstart ?_, rfl⟩
    exact (room_number_eq_ok_iff htotal).mpr ⟨_, hy, hlimit, rfl⟩

/-- A write puts the greatest number of bytes of the encoded text that may be at its place. -/
theorem writeText_eq_ok_iff (hlength : content.length ≤ maxLength) :
    writeText content text offset length encoding = .ok (new, n) ↔
      ∃ start count name e bytes, Placed content.length encoding offset length start count name ∧
        writtenEncoding name = .ok e ∧ e.encode text = .ok bytes ∧
        IsGreatest {m | m ≤ min count bytes.length ∧ e.EndsWhole text m} n ∧
        new = content.overwrite start (bytes.take n) := by
  simp only [writeText, bind_eq_ok, liftM_eq_ok_iff, Encoding.encodeInto_eq_ok_iff]
  constructor
  · intro h
    obtain ⟨⟨start, count⟩, hplace, e, he, slice, hpart, _, ⟨bytes, k, hencode, hk, rfl⟩, hpair⟩ :=
      h
    cases hpair
    have hplaced := Placed.of_textPlace hlength encoding hplace
    rw [length_of_part hpart, Nat.add_sub_cancel_left] at hk
    rw [List.length_take_of_le (hplaced.le_of_isGreatest hk).1]
    exact ⟨start, count, _, e, bytes, hplaced, he, hencode, hk, rfl⟩
  · intro h
    obtain ⟨start, count, name, e, bytes, hplaced, he, hencode, hn, rfl⟩ := h
    obtain ⟨hplace, rfl⟩ := hplaced.eq_ok hlength
    have hpart := part_eq_ok (Nat.le_add_right start count) hplaced.add_le
    refine ⟨(start, count), hplace, e, he, _, hpart, _, ⟨bytes, n, hencode, ?_, rfl⟩, ?_⟩
    · rwa [length_of_part hpart, Nat.add_sub_cancel_left]
    · rw [List.length_take_of_le (hplaced.le_of_isGreatest hn).1]
      rfl

end Content

/-! ## Writing in a store -/

namespace Window

variable {s t : Store} {w : Window} {text : String} {offset length encoding : Value Window}
  {n : Nat}

/-- A write into a window of a block succeeds if and only if its arguments have one of the five
shapes, name an encoding, and the text has bytes in it. What it answers is then the greatest number
of bytes that may be written: at most the room and what there is, at a boundary of characters for
utf8 and of units for utf16le. So many bytes of the encoded text stand at the place afterwards, and
every other byte of every block is what it was. -/
theorem writeText_greatest (hw : s.Holds w) (hlength : w.length ≤ maxLength)
    (ho : ∀ v ∈ offset.buffers, s.Holds v) (hl : ∀ v ∈ length.buffers, s.Holds v)
    (he : ∀ v ∈ encoding.buffers, s.Holds v) :
    (w.writeText text offset length encoding).run s = .ok n t ↔
      ∃ start count name e bytes,
        Content.Placed w.length (encoding.map s.read) (offset.map s.read) (length.map s.read)
          start count name ∧
        Content.writtenEncoding name = .ok e ∧ e.encode text = .ok bytes ∧
        IsGreatest {m | m ≤ min count bytes.length ∧ e.EndsWhole text m} n ∧
        t.blocks.length = s.blocks.length ∧ ∀ id i : Nat, (t.block id)[i]? =
          if id = w.block ∧ w.offset + start ≤ i ∧ i < w.offset + start + n then
            bytes[i - (w.offset + start)]?
          else (s.block id)[i]? := by
  have hread := Store.length_read hw
  rw [run_writeText text hw ho hl he, Store.settle_eq_ok_iff]
  simp only [Content.writeText_eq_ok_iff (hread.trans_le hlength), hread]
  constructor
  · intro h
    obtain ⟨new, ⟨start, count, name, e, bytes, hplaced, hname, hencode, hn, rfl⟩, ht⟩ := h
    obtain ⟨hbytes, hroom⟩ := hplaced.le_of_isGreatest hn
    exact ⟨start, count, name, e, bytes, hplaced, hname, hencode, hn,
      (Store.eq_write_take_iff hw hbytes hroom).mp ht⟩
  · intro h
    obtain ⟨start, count, name, e, bytes, hplaced, hname, hencode, hn, ht⟩ := h
    obtain ⟨hbytes, hroom⟩ := hplaced.le_of_isGreatest hn
    exact ⟨_, ⟨start, count, name, e, bytes, hplaced, hname, hencode, hn, rfl⟩,
      (Store.eq_write_take_iff hw hbytes hroom).mpr ht⟩

/-- The second character has three bytes, for two of which there is room. -/
theorem writeText_greatest_cut :
    let s : Store := ⟨[[0, 0, 0, 0, 0, 0, 0, 0]]⟩
    let t : Store := ⟨[[0, 0, 0, 0x61, 0, 0, 0, 0]]⟩
    let w : Window := ⟨0, 1, 6⟩
    s.Holds w ∧ w.length ≤ maxLength ∧
      IsGreatest {m | m ≤ min 3 5 ∧ Encoding.utf8.EndsWhole "a€b" m} 1 ∧
      (w.writeText "a€b" (.ofInt 2) (.ofInt 3) .undefined).run s = .ok 1 t := by
  intro s t w
  have hw : s.Holds w := by decide
  have hlength : w.length ≤ maxLength := by decide
  have hnone : ∀ v ∈ ([] : List Window), s.Holds v := by simp
  have hgreatest : IsGreatest {m | m ≤ min 3 5 ∧ Encoding.utf8.EndsWhole "a€b" m} 1 :=
    Encoding.isGreatest_fitting "a€b" 3
  have hplaced : Content.Placed w.length .undefined (.ofInt 2) (.ofInt 3) 2 3 .undefined :=
    .bounded (Binary64.hasValue_ofInt (by decide)) (by decide)
      (Binary64.hasValue_ofInt (by decide)) (by decide)
  refine ⟨hw, hlength, hgreatest, ?_⟩
  refine (@writeText_greatest s t w _ (.ofInt 2) (.ofInt 3) .undefined 1 hw hlength hnone hnone
    hnone).mpr ⟨2, 3, .undefined, .utf8, [0x61, 0xE2, 0x82, 0xAC, 0x62], hplaced, rfl, rfl,
      hgreatest, ?_⟩
  exact (Store.eq_write_take_iff hw (by decide) (by decide)).mp rfl

end Window

end Octets
