import Octets.Proofs.Fill
import Octets.Proofs.Position

/-!
# What is repeated by a fill

A fill writes the bytes of its value over and over into a range, and nothing else in the store
changes. Where the range is and what names the encoding of a text is said once (`Content.Filled`),
by the shapes of the offset and of the end, and so is which bytes a value has
(`Content.Repeats`): that a text of one unit may be its own byte does not show there.

* `Content.Pattern.map_bytes_ofText` — the pattern of a text is its encoding;
* `Content.Filled.exists_fillRange`, `Content.exists_filled` — the range;
* `Window.fill_repeats` — both together, byte for byte in the store;
* `Window.fill_unusable` — what becomes of a text that has no bytes in its encoding.
-/

namespace Octets

open Argument (Bound)

namespace Content

variable {content new pattern : Bytes} {value offset stop encoding name : Operand}
  {total first last : Nat}

/-! ## What is repeated -/

/-- The bytes that a value stands for in a fill, under the argument that names the encoding of a
text. -/
inductive Repeats (name : Operand) : Operand → Bytes → Prop where
  | bytes (content : Bytes) : Repeats name (.bytes content) content
  | buffer (content : Bytes) : Repeats name (.buffer content) content
  /-- One zero byte for the empty text. -/
  | empty {e : Encoding} (he : fillEncoding name = .ok e) : Repeats name (.text "") [0]
  | text {s : String} {e : Encoding} {content : Bytes} (hs : s ≠ "")
    (he : fillEncoding name = .ok e) (hcontent : e.encode s = .ok content) :
    Repeats name (.text s) content
  /-- One byte for everything else. -/
  | byte {value : Operand} {b : UInt8} (htext : ∀ s, value ≠ .text s)
    (hbytes : ∀ content, value ≠ .bytes content) (hbuffer : ∀ content, value ≠ .buffer content)
    (hb : value.toByte = .ok b) : Repeats name value [b]

/-- A single byte stands for a text of one unit only where that is the encoding of the text. -/
theorem single_eq_encode {s : String} {u : UInt16} {e : Encoding}
    (hunits : Text.Utf16.units s.toList = [u]) (h : (e = .utf8 ∧ u < 128) ∨ e = .latin1) :
    e.encode s = .ok [Text.SingleByte.lowByte u] := by
  rcases h with ⟨rfl, hsmall⟩ | rfl
  · obtain ⟨c, hc, hu⟩ := Text.Utf16.exists_of_units_eq_singleton hunits
    have hascii : c.toNat < 0x80 := hu ▸ UInt16.lt_iff_toNat_lt.mp hsmall
    rw [Encoding.encode, hc, Text.Utf8.encode_cons, Text.Utf8.encode_nil, List.append_nil,
      Text.Utf8.encodeChar_of_lt hascii, Text.SingleByte.lowByte, hu, Nat.mod_eq_of_lt (by omega)]
  · rw [Encoding.encode, Text.SingleByte.encodeLatin1, hunits]
    rfl

/-- The bytes of the pattern of a text are the bytes of the text in its encoding. -/
theorem Pattern.map_bytes_ofText {s : String} (hs : s ≠ "") (e : Encoding) :
    (Pattern.ofText s e).map Pattern.bytes = e.encode s := by
  have hcycle : ((e.encode s).map Pattern.cycle).map Pattern.bytes = e.encode s := by
    cases e.encode s <;> rfl
  unfold Pattern.ofText
  split
  · rename_i hunits
    exact absurd (String.toList_eq_nil_iff.mp (Text.Utf16.units_eq_nil_iff.mp hunits)) hs
  · rename_i u hunits
    split
    · rename_i hbyte
      rw [single_eq_encode hunits hbyte]
      rfl
    · exact hcycle
  · exact hcycle

/-- A value that is neither a text nor bytes stands for one byte. -/
theorem repeats_byte_iff (htext : ∀ s, value ≠ .text s)
    (hbytes : ∀ content, value ≠ .bytes content) (hbuffer : ∀ content, value ≠ .buffer content) :
    Repeats name value pattern ↔ ∃ b, value.toByte = .ok b ∧ pattern = [b] := by
  constructor
  · intro h
    cases h with
    | bytes content => exact absurd rfl (hbytes _)
    | buffer content => exact absurd rfl (hbuffer _)
    | empty he => exact absurd rfl (htext "")
    | text hs he hcontent => exact absurd rfl (htext _)
    | byte _ _ _ hb => exact ⟨_, hb, rfl⟩
  · intro h
    obtain ⟨b, hb, rfl⟩ := h
    exact .byte htext hbytes hbuffer hb

/-- A pattern has the bytes that its value stands for. -/
theorem map_bytes_pattern_eq_ok_iff :
    (Content.pattern value name).map Pattern.bytes = .ok pattern ↔ Repeats name value pattern := by
  cases value with
  | text s =>
    simp only [Content.pattern, map_eq_ok, bind_eq_ok]
    constructor
    · intro h
      obtain ⟨p, ⟨e, he, hp⟩, rfl⟩ := h
      by_cases hs : s = ""
      · subst hs
        cases hp
        exact .empty he
      · refine .text hs he ?_
        rw [← Pattern.map_bytes_ofText hs, hp]
        rfl
    · intro h
      cases h with
      | empty he => exact ⟨_, ⟨_, he, rfl⟩, rfl⟩
      | text hs he hcontent =>
        rw [← Pattern.map_bytes_ofText hs] at hcontent
        obtain ⟨p, hp, rfl⟩ := map_eq_ok.mp hcontent
        exact ⟨p, ⟨_, he, hp⟩, rfl⟩
      | byte htext => exact absurd rfl (htext s)
  | bytes content =>
    constructor
    · intro h
      cases h
      exact .bytes content
    · intro h
      cases h with
      | bytes => rfl
      | byte _ hbytes => exact absurd rfl (hbytes content)
  | buffer content =>
    constructor
    · intro h
      cases h
      exact .buffer content
    · intro h
      cases h with
      | buffer => rfl
      | byte _ _ hbuffer => exact absurd rfl (hbuffer content)
  | _ =>
    rw [repeats_byte_iff (by simp) (by simp) (by simp), map_eq_ok]
    simp only [Content.pattern, bind_eq_ok]
    constructor
    · intro h
      obtain ⟨_, ⟨b, hb, hp⟩, rfl⟩ := h
      cases hp
      exact ⟨b, hb, rfl⟩
    · intro h
      obtain ⟨b, hb, rfl⟩ := h
      exact ⟨_, ⟨b, hb, rfl⟩, rfl⟩

/-- A position holds the byte of the pattern that its remainder counts. -/
theorem getElem?_repeated_of_ne_nil {count i : Nat} (hpattern : pattern ≠ []) (h : i < count) :
    (repeated pattern count)[i]? = pattern[i % pattern.length]? := by
  have hlt := Nat.mod_lt i (List.length_pos_iff.mpr hpattern)
  rw [getElem?_repeated _ h, List.getD_eq_getElem?_getD, List.getElem?_eq_getElem hlt,
    Option.getD_some]

/-! ## Where it is written -/

/-- Where a fill among `total` bytes begins and stops, and the argument that names the encoding of a
text, by the shapes of the offset and of the end. Only where the value is a text may a text stand in
their place, and is then the name of the encoding. -/
inductive Filled (total : Nat) (value encoding : Operand) :
    Operand → Operand → Nat → Nat → Operand → Prop where
  /-- Without an offset, all bytes, and a text in utf8, whatever encoding is given. -/
  | whole (stop : Operand) : Filled total value encoding .undefined stop 0 total .undefined
  /-- The encoding in the place of the offset. -/
  | named (hvalue : value.isText = true) (e : String) (stop : Operand) :
    Filled total value encoding (.text e) stop 0 total (.text e)
  /-- From the offset to the end, which is that of the bytes if it is missing. -/
  | range {x : Binary64} {first last : Nat} {stop : Operand} (hx : x.HasValue first)
    (hfirst : first ≤ maxLength) (hlast : Bound total total stop last) :
    Filled total value encoding (.number x) stop first last encoding
  /-- The encoding in the place of the end. -/
  | rangeNamed (hvalue : value.isText = true) {x : Binary64} {first : Nat} (hx : x.HasValue first)
    (hfirst : first ≤ maxLength) (e : String) :
    Filled total value encoding (.number x) (.text e) first total (.text e)

/-- A fill stops in the bytes, and begins where a block may. -/
theorem Filled.le (h : Filled total value encoding offset stop first last name) :
    first ≤ maxLength ∧ last ≤ total := by
  cases h with
  | whole => exact ⟨Nat.zero_le _, Nat.le_refl _⟩
  | named => exact ⟨Nat.zero_le _, Nat.le_refl _⟩
  | range hx hfirst hlast => exact ⟨hfirst, hlast.le (Nat.le_refl _)⟩
  | rangeNamed hvalue hx hfirst => exact ⟨hfirst, Nat.le_refl _⟩

/-- A range that is not passed over does not stop before it begins. -/
theorem Filled.first_le (h : Filled total value encoding offset stop first last name)
    (hfilled : ¬(offset.number?.isSome ∧ last ≤ first)) : first ≤ last := by
  cases h with
  | whole => exact Nat.zero_le _
  | named => exact Nat.zero_le _
  | range => exact Nat.le_of_not_le fun hle => hfilled ⟨rfl, hle⟩
  | rangeNamed => exact Nat.le_of_not_le fun hle => hfilled ⟨rfl, hle⟩

/-- Behind an offset, a bound in the place of the end is the end. -/
theorem span_number {x : Binary64} (hlast : Bound total total stop last) :
    span value (.number x) stop encoding = ⟨.number x, stop, encoding⟩ := by
  have hstop : stop.isText = false := by cases hlast <;> rfl
  unfold span textSpan
  rw [hstop]
  split <;> rfl

/-- The argument that names the encoding of a text is the one that is looked at. -/
theorem Filled.encoding_eq (h : Filled total value encoding offset stop first last name)
    (hvalue : value.isText = true) : (span value offset stop encoding).encoding = name := by
  cases h with
  | whole => rw [span, if_pos hvalue]; rfl
  | named => rw [span, if_pos hvalue]; rfl
  | range hx hfirst hlast => rw [span_number hlast]
  | rangeNamed => rw [span, if_pos hvalue]; rfl

/-- The range of a fill behind an offset. -/
theorem exists_fillRange_number {x : Binary64} (hx : x.HasValue first) (hfirst : first ≤ maxLength)
    (hlast : Bound total total stop last) :
    ∃ m, fillRange total (.number x) stop =
        .ok (if m ≤ first then none else some (first, m)) ∧
      (m = last ∨ maxLength < m ∧ maxLength < last) := by
  have hposition : Argument.position (.number x) "offset" maxLength = .ok first :=
    (Argument.position_eq_ok_iff (Nat.le_refl _)).mpr ⟨x, rfl, hx, hfirst⟩
  obtain ⟨m, hm, hkept⟩ := hlast.exists_positionOr "end"
  refine ⟨m, ?_, hkept⟩
  simp only [fillRange, Value.isUndefined, hposition, hm]
  rfl

/-- The range that is filled is the one that the arguments give. Only an empty one behind an offset
is passed over. -/
theorem Filled.exists_fillRange (h : Filled total value encoding offset stop first last name) :
    ∃ m, fillRange total (span value offset stop encoding).offset
          (span value offset stop encoding).stop =
        .ok (if offset.number?.isSome ∧ m ≤ first then none else some (first, m)) ∧
      (m = last ∨ maxLength < m ∧ maxLength < last) := by
  cases h with
  | whole =>
    refine ⟨total, ?_, .inl rfl⟩
    unfold span
    split <;> rfl
  | named hvalue =>
    refine ⟨total, ?_, .inl rfl⟩
    rw [span, if_pos hvalue]
    rfl
  | range hx hfirst hlast =>
    rw [span_number hlast]
    simpa [Value.number?] using exists_fillRange_number hx hfirst hlast
  | @rangeNamed hvalue x _ hx hfirst e =>
    have hspan : span value (.number x) (.text e) encoding = ⟨.number x, .undefined, .text e⟩ := by
      rw [span, if_pos hvalue]
      rfl
    rw [hspan]
    simpa [Value.number?] using exists_fillRange_number hx hfirst .missing

/-- What is taken for a range behind an argument that is not missing. -/
theorem exists_bound_of_fillRange {range : Option (Nat × Nat)} (htotal : total ≤ maxLength)
    (hgiven : offset.isUndefined = false) (h : fillRange total offset stop = .ok range) :
    ∃ x first last, offset = .number x ∧ x.HasValue (first : Nat) ∧ first ≤ maxLength ∧
      Bound total total stop last := by
  rw [fillRange, hgiven, if_neg Bool.false_ne_true, bind_eq_ok] at h
  obtain ⟨first, hfirst, h⟩ := h
  obtain ⟨last, hlast, -⟩ := bind_eq_ok.mp h
  obtain ⟨x, hoffset, hx, hle⟩ := (Argument.position_eq_ok_iff (Nat.le_refl _)).mp hfirst
  exact ⟨x, first, last, hoffset, hx, hle, (Argument.positionOr_eq_ok_iff htotal).mp hlast⟩

/-- Arguments that a fill takes for a range are of one of the four shapes. -/
theorem exists_filled {range : Option (Nat × Nat)} (htotal : total ≤ maxLength)
    (h : fillRange total (span value offset stop encoding).offset
      (span value offset stop encoding).stop = .ok range) :
    ∃ first last name, Filled total value encoding offset stop first last name := by
  cases hoffset : offset.isUndefined with
  | true =>
    cases offset with
    | undefined => exact ⟨0, total, .undefined, .whole stop⟩
    | _ => cases hoffset
  | false =>
    by_cases hvalue : value.isText = true
    · rw [span, if_pos hvalue, textSpan, hoffset, Bool.false_or] at h
      split at h
      · rename_i htext
        cases offset with
        | text e => exact ⟨0, total, .text e, .named hvalue e stop⟩
        | _ => cases htext
      · split at h
        · rename_i htext
          obtain ⟨x, first, -, rfl, hx, hle, -⟩ := exists_bound_of_fillRange htotal hoffset h
          cases stop with
          | text e => exact ⟨first, total, .text e, .rangeNamed hvalue hx hle e⟩
          | _ => cases htext
        · obtain ⟨x, first, last, rfl, hx, hle, hlast⟩ := exists_bound_of_fillRange htotal hoffset h
          exact ⟨first, last, encoding, .range hx hle hlast⟩
    · rw [span, if_neg hvalue] at h
      obtain ⟨x, first, last, rfl, hx, hle, hlast⟩ := exists_bound_of_fillRange htotal hoffset h
      exact ⟨first, last, encoding, .range hx hle hlast⟩

/-! ## Both together -/

/-- Only a text has an encoding. -/
theorem pattern_congr {name' : Operand} (h : value.isText = true → name = name') :
    Content.pattern value name = Content.pattern value name' := by
  cases value with
  | text s => rw [h rfl]
  | _ => rfl

/-- The pattern that is found is the one of the bytes that the value stands for. -/
theorem Filled.repeats_iff (h : Filled total value encoding offset stop first last name) :
    Repeats name value pattern ↔
      ∃ p, Content.pattern value (span value offset stop encoding).encoding = .ok p ∧
        p.bytes = pattern := by
  rw [pattern_congr h.encoding_eq, ← map_bytes_pattern_eq_ok_iff, map_eq_ok]

/-- What is done with a range: nothing where it is passed over, and else it is overwritten by a
pattern that is not empty. -/
theorem fill_range_eq_ok_iff {passed : Prop} [Decidable passed] {p : Pattern}
    (hpassed : passed → last ≤ first) (hle : ¬passed → first ≤ last)
    (hlast : last ≤ content.length) :
    (match (if passed then none else some (first, last)) with
      | none => return content
      | some (first, last) => do
        refuse p.bytes.isEmpty (.invalidValue "value" value)
        replaced content first last (repeated p.bytes (last - first)) : Except Stop Bytes) =
          .ok new ↔
      (p.bytes = [] → passed) ∧
        new = content.overwrite first (repeated p.bytes (last - first)) := by
  by_cases h : passed
  · have hnothing : repeated p.bytes (last - first) = [] := by
      rw [Nat.sub_eq_zero_of_le (hpassed h)]
      rfl
    rw [if_pos h, hnothing, Bytes.overwrite_nil]
    constructor
    · intro hok
      cases hok
      exact ⟨fun _ => h, rfl⟩
    · intro hnew
      rw [hnew.2]
      rfl
  · have hreplaced : replaced content first last (repeated p.bytes (last - first)) =
        .ok (content.overwrite first (repeated p.bytes (last - first))) :=
      replaced_eq_ok (hle h) hlast (length_repeated _ _)
    simp only [if_neg h, hreplaced]
    by_cases hempty : p.bytes = []
    · rw [refuse_eq_error (by rw [hempty]; rfl)]
      constructor
      · intro hok
        cases hok
      · intro hnew
        exact absurd (hnew.1 hempty) h
    · rw [refuse_eq_ok (by simpa using hempty)]
      constructor
      · intro hok
        cases hok
        exact ⟨fun hbytes => absurd hbytes hempty, rfl⟩
      · intro hnew
        rw [hnew.2]
        rfl

/-- A fill writes the bytes that its value stands for over and over into its range. It needs at
least one byte, unless there is nothing to fill behind an offset. -/
theorem fill_eq_ok_iff (hlength : content.length ≤ maxLength) :
    fill content value offset stop encoding = .ok new ↔
      ∃ first last name pattern, Filled content.length value encoding offset stop first last name ∧
        Repeats name value pattern ∧ (pattern = [] → offset.number?.isSome ∧ last ≤ first) ∧
        new = content.overwrite first (repeated pattern (last - first)) := by
  simp only [fill, bind_eq_ok, liftM_eq_ok_iff]
  constructor
  · intro h
    obtain ⟨p, hp, range, hrange, h⟩ := h
    obtain ⟨first, last, name, hfilled⟩ := exists_filled hlength hrange
    obtain ⟨m, hm, hkept⟩ := hfilled.exists_fillRange
    have hlast := hfilled.le.2
    obtain rfl : m = last := by omega
    obtain rfl := Except.ok.inj (hrange.symm.trans hm)
    exact ⟨first, m, name, p.bytes, hfilled, hfilled.repeats_iff.mpr ⟨p, hp, rfl⟩,
      (fill_range_eq_ok_iff And.right hfilled.first_le hlast).mp h⟩
  · intro h
    obtain ⟨first, last, name, pattern, hfilled, hrepeats, hnew⟩ := h
    obtain ⟨p, hp, rfl⟩ := hfilled.repeats_iff.mp hrepeats
    obtain ⟨m, hm, hkept⟩ := hfilled.exists_fillRange
    have hlast := hfilled.le.2
    obtain rfl : m = last := by omega
    exact ⟨p, hp, _, hm, (fill_range_eq_ok_iff And.right hfilled.first_le hlast).mpr hnew⟩

/-! ## Texts without bytes -/

/-- A text without bytes is refused where there is something to fill: by its encoding, or because
there is nothing to repeat. -/
theorem Filled.fill_eq_error {s : String} {e : Encoding} (hs : s ≠ "")
    (h : Filled content.length (.text s) encoding offset stop first last name)
    (hname : fillEncoding name = .ok e) (hlt : first < last) :
    (∀ f, e.encode s = .error f →
      fill content (.text s) offset stop encoding = .error (.fault f)) ∧
    (e.encode s = .ok [] →
      fill content (.text s) offset stop encoding =
        .error (.fault (.invalidValue "value" (.text s)))) := by
  have hpattern : Content.pattern (.text s) (span (.text s) offset stop encoding).encoding =
      Pattern.ofText s e := by
    rw [h.encoding_eq rfl, Content.pattern, hname]
    rfl
  have hbytes := Pattern.map_bytes_ofText hs e
  obtain ⟨m, hm, hkept⟩ := h.exists_fillRange
  have hfirst := h.le.1
  rw [if_neg (by omega)] at hm
  simp only [fill, hpattern, hm]
  generalize Pattern.ofText s e = r at hbytes
  constructor
  · intro f hf
    rw [hf] at hbytes
    cases r with
    | ok p => cases hbytes
    | error f' =>
      cases hbytes
      rfl
  · intro hempty
    rw [hempty] at hbytes
    obtain ⟨p, rfl, hp⟩ := map_eq_ok.mp hbytes
    simp only [liftM_ok, ok_bind, hp]
    rfl

end Content

namespace Store

/-- The store after a range of a window was filled is the one with the pattern in the range. -/
theorem eq_write_repeated_iff {s t : Store} {w : Window} (hw : s.Holds w) {first last : Nat}
    {pattern : Bytes} (hpattern : pattern = [] → last ≤ first) (hlast : last ≤ w.length) :
    t = s.write w ((s.read w).overwrite first (Content.repeated pattern (last - first))) ↔
      t.blocks.length = s.blocks.length ∧ ∀ id i : Nat, (t.block id)[i]? =
        if id = w.block ∧ w.offset + first ≤ i ∧ i < w.offset + last then
          pattern[(i - (w.offset + first)) % pattern.length]?
        else (s.block id)[i]? := by
  have hbyte : ∀ j < last - first, (Content.repeated pattern (last - first))[j]? =
      pattern[j % pattern.length]? := by
    intro j hj
    refine Content.getElem?_repeated_of_ne_nil (fun hempty => ?_) hj
    have hle := hpattern hempty
    omega
  have hrange : ∀ id i : Nat,
      (id = w.block ∧ w.offset + first ≤ i ∧ i < w.offset + first + (last - first)) =
        (id = w.block ∧ w.offset + first ≤ i ∧ i < w.offset + last) := by
    intro id i
    exact propext (by omega)
  rw [eq_write_overwrite_iff hw (Content.length_repeated _ _) (by omega) hbyte]
  simp only [hrange]

end Store

namespace Window

variable {s t : Store} {w : Window} {value offset stop encoding : Value Window}

/-! ## Filling in a store -/

/-- A fill of a window of a block succeeds if and only if its arguments give a range, its value has
bytes, and these are not none where there is something to fill. They then stand in the range over
and over, from its beginning on and cut at its end, and every other byte of every block is what it
was. Of a buffer they are those that it showed before, whether or not it shares bytes with the
range. -/
theorem fill_repeats (hw : s.Holds w) (hlength : w.length ≤ maxLength)
    (hv : ∀ v ∈ value.buffers, s.Holds v) (ho : ∀ v ∈ offset.buffers, s.Holds v)
    (hstop : ∀ v ∈ stop.buffers, s.Holds v) (he : ∀ v ∈ encoding.buffers, s.Holds v) :
    (w.fill value offset stop encoding).run s = .ok () t ↔
      ∃ first last name pattern,
        Content.Filled w.length (value.map s.read) (encoding.map s.read) (offset.map s.read)
          (stop.map s.read) first last name ∧
        Content.Repeats name (value.map s.read) pattern ∧
        (pattern = [] → (offset.map s.read).number?.isSome ∧ last ≤ first) ∧
        t.blocks.length = s.blocks.length ∧ ∀ id i : Nat, (t.block id)[i]? =
          if id = w.block ∧ w.offset + first ≤ i ∧ i < w.offset + last then
            pattern[(i - (w.offset + first)) % pattern.length]?
          else (s.block id)[i]? := by
  have hread := Store.length_read hw
  rw [run_fill hw hv ho hstop he, Store.settle_unit_eq_ok_iff]
  simp only [Content.fill_eq_ok_iff (hread.trans_le hlength), hread]
  constructor
  · intro h
    obtain ⟨_, ⟨first, last, name, pattern, hfilled, hrepeats, hempty, rfl⟩, ht⟩ := h
    exact ⟨first, last, name, pattern, hfilled, hrepeats, hempty,
      (Store.eq_write_repeated_iff hw (fun h => (hempty h).2) hfilled.le.2).mp ht⟩
  · intro h
    obtain ⟨first, last, name, pattern, hfilled, hrepeats, hempty, ht⟩ := h
    exact ⟨_, ⟨first, last, name, pattern, hfilled, hrepeats, hempty, rfl⟩,
      (Store.eq_write_repeated_iff hw (fun h => (hempty h).2) hfilled.le.2).mpr ht⟩

/-- A window that is filled with bytes of its own block, of which some lie in the range. The last
repetition is cut. -/
theorem fill_repeats_overlap :
    let s : Store := ⟨[[1, 2, 3, 4, 5, 6, 7]]⟩
    let t : Store := ⟨[[1, 2, 3, 2, 3, 4, 2]]⟩
    let w : Window := ⟨0, 2, 5⟩
    s.Holds w ∧ w.length ≤ maxLength ∧ s.Holds ⟨0, 1, 3⟩ ∧
      (w.fill (.buffer ⟨0, 1, 3⟩) (.ofInt 1) .undefined .undefined).run s = .ok () t := by
  intro s t w
  have hw : s.Holds w := by decide
  have hlength : w.length ≤ maxLength := by decide
  have hsource : s.Holds ⟨0, 1, 3⟩ := by decide
  have hnone : ∀ v ∈ ([] : List Window), s.Holds v := by simp
  have hvalue : ∀ v ∈ (.buffer ⟨0, 1, 3⟩ : Value Window).buffers, s.Holds v := by
    intro v hv
    obtain rfl := List.mem_singleton.mp hv
    exact hsource
  have hfilled : Content.Filled w.length (.buffer [2, 3, 4]) .undefined (.ofInt 1) .undefined 1 5
      .undefined :=
    .range (Binary64.hasValue_ofInt (by decide)) (by decide) .missing
  refine ⟨hw, hlength, hsource, ?_⟩
  refine (@fill_repeats s t w (.buffer ⟨0, 1, 3⟩) (.ofInt 1) .undefined .undefined hw hlength hvalue
    hnone hnone hnone).mpr ⟨1, 5, .undefined, [2, 3, 4], hfilled, .buffer _, ?_, ?_⟩
  · intro hempty
    cases hempty
  · exact (Store.eq_write_repeated_iff hw (by decide) (by decide)).mp rfl

/-- A text that is to be repeated in a range that is not empty and has no bytes is refused, and
nothing is written. If its encoding makes no bytes of it, it is a value that cannot be used. If it
is not in its encoding, which may only be the case in base64, it is malformed. -/
theorem fill_unusable {text : String} {first last : Nat} {name : Operand} {e : Encoding}
    (hw : s.Holds w) (ho : ∀ v ∈ offset.buffers, s.Holds v)
    (hstop : ∀ v ∈ stop.buffers, s.Holds v) (he : ∀ v ∈ encoding.buffers, s.Holds v)
    (htext : text ≠ "")
    (hfilled : Content.Filled w.length (.text text) (encoding.map s.read) (offset.map s.read)
      (stop.map s.read) first last name)
    (hname : Content.fillEncoding name = .ok e) (hlt : first < last) :
    (e.encode text = .ok [] →
      ∃ f, (w.fill (.text text) offset stop encoding).run s = .error (.fault f) s ∧
        f.kind = .type ∧ f.code? = some "ERR_INVALID_ARG_VALUE" ∧
        f.message = "The argument 'value' is invalid. Received " ++
          cutText 128 128 (Value.text text : Operand).shown) ∧
    ((¬∃ bytes, e.encode text = .ok bytes) →
      (e = .base64 ∨ e = .base64url) ∧
      ∃ f, (w.fill (.text text) offset stop encoding).run s = .error (.fault f) s ∧
        f.kind = .type ∧ f.code? = some "ERR_INVALID_CHARACTER" ∧
        f.message = "The string to be decoded is not correctly encoded.") := by
  have hnone : ∀ v ∈ (.text text : Value Window).buffers, s.Holds v := by
    intro v hv
    cases hv
  rw [← Store.length_read hw] at hfilled
  obtain ⟨hmalformed, hempty⟩ := hfilled.fill_eq_error htext hname hlt
  rw [run_fill hw hnone ho hstop he, Value.map]
  constructor
  · intro hencode
    rw [hempty hencode]
    exact ⟨_, rfl, rfl, rfl, rfl⟩
  · intro hencode
    cases h : e.encode text with
    | ok bytes => exact absurd ⟨bytes, h⟩ hencode
    | error f =>
      obtain ⟨hbase64, rfl⟩ := Encoding.encode_eq_error h
      rw [hmalformed _ h]
      exact ⟨hbase64, _, rfl, rfl, rfl, rfl⟩

/-- Two texts without bytes, the one because none of its characters is a digit, the other because
one character of base64 is too few. -/
theorem fill_unusable_texts :
    let s : Store := ⟨[[1, 2, 3, 4]]⟩
    let w : Window := ⟨0, 1, 3⟩
    (∃ f, (w.fill (.text "zz") (.ofInt 1) (.text "hex") .undefined).run s = .error (.fault f) s ∧
      f.message = "The argument 'value' is invalid. Received 'zz'") ∧
    ∃ f, (w.fill (.text "A") (.text "base64url") .undefined .undefined).run s =
        .error (.fault f) s ∧
      f.message = "The string to be decoded is not correctly encoded." := by
  intro s w
  have hw : s.Holds w := by decide
  have hnone : ∀ v ∈ ([] : List Window), s.Holds v := by simp
  constructor
  · have hfilled : Content.Filled w.length (.text "zz") .undefined (.ofInt 1) (.text "hex") 1 3
        (.text "hex") :=
      .rangeNamed rfl (Binary64.hasValue_ofInt (by decide)) (by decide) "hex"
    obtain ⟨f, hrun, -, -, hmessage⟩ :=
      (@fill_unusable s w (.ofInt 1) (.text "hex") .undefined "zz" 1 3 (.text "hex") .hex hw hnone
        hnone hnone (by decide) hfilled rfl (by decide)).1 rfl
    exact ⟨f, hrun, hmessage.trans rfl⟩
  · have hfilled : Content.Filled w.length (.text "A") .undefined (.text "base64url") .undefined 0 3
        (.text "base64url") :=
      .named rfl "base64url" .undefined
    have hencode : ¬∃ bytes, Encoding.base64url.encode "A" = .ok bytes := by
      intro h
      obtain ⟨bytes, h⟩ := h
      cases h
    obtain ⟨-, f, hrun, -, -, hmessage⟩ :=
      (@fill_unusable s w (.text "base64url") .undefined .undefined "A" 0 3 (.text "base64url")
        .base64url hw hnone hnone hnone (by decide) hfilled rfl (by decide)).2 hencode
    exact ⟨f, hrun, hmessage⟩

/-- A text that is not in its encoding is not refused as a value that cannot be used. -/
theorem fill_malformed_text :
    let s : Store := ⟨[[0]]⟩
    let w : Window := ⟨0, 0, 1⟩
    s.Holds w ∧
      Content.Filled w.length (.text "A") .undefined (.text "base64") .undefined 0 1
        (.text "base64") ∧
      Content.fillEncoding (.text "base64") = .ok .base64 ∧
      (¬∃ bytes, Encoding.base64.encode "A" = .ok bytes) ∧
      ¬∃ f t, (w.fill (.text "A") (.text "base64") .undefined .undefined).run s =
          .error (.fault f) t ∧
        f.code? = some "ERR_INVALID_ARG_VALUE" := by
  intro s w
  have hw : s.Holds w := by decide
  have hnone : ∀ v ∈ ([] : List Window), s.Holds v := by simp
  have hfill : Content.fill [0] (.text "A") (.text "base64") .undefined .undefined =
      .error (.fault .malformedText) := rfl
  have hrun : (w.fill (.text "A") (.text "base64") .undefined .undefined).run s =
      .error (.fault .malformedText) s := by
    refine (@run_fill s w (.text "A") (.text "base64") .undefined .undefined hw hnone hnone hnone
      hnone).trans ?_
    exact congrArg (fun r => s.settle w ((·, ()) <$> r)) hfill
  refine ⟨hw, .named rfl "base64" .undefined, rfl, ?_, ?_⟩
  · intro h
    obtain ⟨bytes, h⟩ := h
    cases h
  · intro h
    obtain ⟨f, t, hfault, hcode⟩ := h
    rw [hrun] at hfault
    cases hfault
    exact absurd hcode (by decide)

end Window

end Octets
