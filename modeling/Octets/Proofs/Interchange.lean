import Octets.Proofs.Joining
import Octets.Proofs.Nesting
import Octets.Session

/-!
# Buffers in JSON text

A buffer is read from any text of a JSON object that has the fields `type` and `data` once each, in
any order and among any others, with any blanks. Its bytes are the numbers in `data` modulo `256`,
which are those of a buffer that is made from these numbers. The text that a buffer is written as is
one of them, so that it is read as the same bytes.

The way from the text leads through the value that it spells (`Json.ofText?_of_spelled`). Integers
of at most 53 bits reach a binary64 number without rounding (`Json.exists_number?`), and a field is
found by its name alone (`Json.field?_of_perm`).

* `Json.BufferFields` — the fields of a buffer, in any order and among others;
* `Bytes.ofJson_of_spelled` — what any text with these fields is read as;
* `Bytes.spelled_json` — the text of a buffer is such a text;
* `Session.json_round_trip` — both together, for the buffers of a session.
-/

namespace Octets

namespace Json

/-! ## Integers -/

/-- The value of a number without a point and an exponent. -/
inductive IsInteger : Json → Int → Prop where
  | nonneg (whole : List Char) :
    IsInteger (.number ⟨false, whole, [], none⟩) (Nat.ofDigitChars 10 whole 0)
  | neg (whole : List Char) :
    IsInteger (.number ⟨true, whole, [], none⟩) (-(Nat.ofDigitChars 10 whole 0 : Nat))

/-- Digits do not make a number smaller that they stand behind. -/
theorem le_ofDigitChars (digits : List Char) (n : Nat) : n ≤ Nat.ofDigitChars 10 digits n := by
  induction digits generalizing n with
  | nil => exact Nat.le_refl n
  | cons c digits ih =>
    rw [Nat.ofDigitChars_cons]
    exact Nat.le_trans (by omega) (ih _)

/-- All digits are taken in if the number that they make is not too great. -/
theorem absorb_eq {digits : List Char} {n : Nat}
    (h : Nat.ofDigitChars 10 digits n ≤ maxSignificand) :
    absorb n digits = (Nat.ofDigitChars 10 digits n, []) := by
  induction digits generalizing n with
  | nil => rfl
  | cons c digits ih =>
    have hnext : n * 10 + (c.toNat - 0x30) = 10 * n + (c.toNat - '0'.toNat) := by
      rw [Nat.mul_comm]
      rfl
    rw [Nat.ofDigitChars_cons] at h ⊢
    have hle := Nat.le_trans (le_ofDigitChars digits _) h
    rw [absorb, hnext, if_neg (Nat.not_lt.mpr hle), ih h]

/-- An integer of at most 53 bits is read without rounding. -/
theorem exists_number? {v : Json} {i : Int} (h : IsInteger v i) (hi : i.natAbs ≤ 2 ^ 53) :
    ∃ x, number? v = some x ∧ x.HasValue i := by
  cases h with
  | nonneg whole =>
    have habsorb : absorb 0 whole = _ := absorb_eq (by unfold maxSignificand; omega)
    refine ⟨Binary64.ofNat (Nat.ofDigitChars 10 whole 0), ?_, Binary64.hasValue_ofInt_of_le hi⟩
    simp [number?, amount?, habsorb, Amount.toNumber]
  | neg whole =>
    have habsorb : absorb 0 whole = _ := absorb_eq (by unfold maxSignificand; omega)
    generalize Nat.ofDigitChars 10 whole 0 = m at hi habsorb ⊢
    -- A negative zero is not taken for an integer, but has the value of one.
    by_cases hzero : m = 0
    · refine ⟨(Binary64.ofNat m).neg, ?_, (Binary64.hasValue_ofInt_of_le ?_).neg⟩
      · simp [number?, amount?, habsorb, Amount.toNumber, hzero]
      · rw [hzero]
        decide
    · have hfits : m ≤ 0x8000000000000000 := by omega
      refine ⟨Binary64.ofInt (-m), ?_, Binary64.hasValue_ofInt_of_le hi⟩
      simp [number?, amount?, habsorb, Amount.toNumber, hzero, hfits]

/-- Numbers that are read without rounding have the integers modulo `256` as their bytes. -/
theorem exists_mapM_number? {values : List Json} {ints : List Int}
    (h : List.Forall₂ IsInteger values ints) (hints : ∀ i ∈ ints, i.natAbs ≤ 2 ^ 53) :
    ∃ xs, values.mapM number? = some xs ∧
      xs.map Binary64.toByte = ints.map fun i => UInt8.ofNat (i % 256).toNat := by
  induction h with
  | nil => exact ⟨[], rfl, rfl⟩
  | cons hvalue _ ih =>
    obtain ⟨hi, hints⟩ := List.forall_mem_cons.mp hints
    obtain ⟨x, hx, hxvalue⟩ := exists_number? hvalue hi
    obtain ⟨xs, hxs, hbytes⟩ := ih hints
    refine ⟨x :: xs, ?_, ?_⟩
    · rw [List.mapM_cons, hx, hxs]
      rfl
    · rw [List.map_cons, List.map_cons, hbytes, hxvalue.toByte]

/-! ## Fields -/

/-- The fields of a buffer: its type and its numbers once each, and any others, in any order. -/
def BufferFields (entries : List (Quoted × Json)) (values : List Json) : Prop :=
  ∃ others : List (Quoted × Json),
    entries.Perm ((some "type".toList, .text (some bufferType.toList)) ::
      (some "data".toList, .items values) :: others) ∧
    ∀ entry ∈ others, ∃ name, entry.1 = some name ∧ name ≠ "type".toList ∧ name ≠ "data".toList

/-- A field is found wherever it stands, if no other one has its name. -/
theorem field?_of_perm {name : String} {v : Json} {entries others : List (Quoted × Json)}
    (h : entries.Perm ((some name.toList, v) :: others))
    (hothers : ∀ entry ∈ others, entry.1 ≠ some name.toList) :
    field? name entries = some (some v) := by
  have hnone : others.filter (fun entry => entry.1 == some name.toList) = [] :=
    List.filter_eq_nil_iff.mpr fun entry hentry => by simpa using hothers entry hentry
  have hfilter := h.filter fun entry => entry.1 == some name.toList
  rw [List.filter_cons_of_pos (by simp), hnone, List.perm_singleton] at hfilter
  rw [field?, hfilter]

/-- The record of the fields of a buffer. -/
theorem BufferFields.typed?_eq {entries : List (Quoted × Json)} {values : List Json}
    {xs : List Binary64} (h : BufferFields entries values) (hxs : values.mapM number? = some xs) :
    typed? (.fields entries) = some ⟨bufferType.toList, xs⟩ := by
  obtain ⟨others, hperm, hothers⟩ := h
  have hdistinct : some "type".toList ≠ some "data".toList := by decide
  have hnames : namesAreTexts entries = true := by
    rw [namesAreTexts, List.all_eq_true]
    intro entry hentry
    obtain rfl | rfl | hentry := by simpa using hperm.mem_iff.mp hentry
    · rfl
    · rfl
    · obtain ⟨name, hname, -⟩ := hothers entry hentry
      rw [hname]
      rfl
  have hne : ∀ entry ∈ others,
      entry.1 ≠ some "type".toList ∧ entry.1 ≠ some "data".toList := by
    intro entry hentry
    obtain ⟨name, hname, htype, hdata⟩ := hothers entry hentry
    rw [hname]
    exact ⟨fun heq => htype (Option.some.inj heq), fun heq => hdata (Option.some.inj heq)⟩
  have htype : field? "type" entries = some (some (.text (some bufferType.toList))) :=
    field?_of_perm hperm
      (List.forall_mem_cons.mpr ⟨hdistinct.symm, fun entry hentry => (hne entry hentry).1⟩)
  have hdata : field? "data" entries = some (some (.items values)) :=
    field?_of_perm (hperm.trans (.swap _ _ _))
      (List.forall_mem_cons.mpr ⟨hdistinct, fun entry hentry => (hne entry hentry).2⟩)
  simp [typed?, hnames, htype, hdata, text?, numbers?, hxs]

end Json

namespace Bytes

/-- Any text with the fields of a buffer is read as its numbers modulo `256`. -/
theorem ofJson_of_spelled {text : String} {entries : List (Json.Quoted × Json)}
    {values : List Json} {ints : List Int} (h : (Json.fields entries).Spelled text.toList)
    (hfields : Json.BufferFields entries values)
    (hvalues : List.Forall₂ Json.IsInteger values ints) (hints : ∀ i ∈ ints, i.natAbs ≤ 2 ^ 53) :
    ofJson text = .ok (ints.map fun i => UInt8.ofNat (i % 256).toNat) := by
  obtain ⟨xs, hxs, hbytes⟩ := Json.exists_mapM_number? hvalues hints
  rw [ofJson, Json.ofText?_of_spelled h, Option.bind_some, hfields.typed?_eq hxs, ← hbytes]
  exact if_pos rfl

end Bytes

namespace Json

/-- The digits of a natural number are those of a whole number. -/
theorem whole_toDigits (n : Nat) : Whole (Nat.toDigits 10 n) := by
  have hdigits : ∀ c ∈ Nat.toDigits 10 n, c.isDigit = true := fun c hc =>
    Nat.isDigit_of_mem_toDigits (by decide) (by decide) hc
  refine ⟨⟨Nat.toDigits_ne_nil, hdigits⟩, ?_⟩
  clear hdigits
  induction n using Nat.strongRecOn with
  | ind n ih =>
    intro hhead
    by_cases hlt : n < 10
    · rw [Nat.toDigits_of_lt_base hlt] at hhead ⊢
      rw [Option.some.inj hhead]
    · -- The first digit is that of a tenth, which is not zero.
      have hle := Nat.not_lt.mp hlt
      rw [Nat.toDigits_of_base_le (by decide) hle,
        List.head?_append_of_ne_nil _ Nat.toDigits_ne_nil] at hhead
      have htenth := ih (n / 10) (by omega) hhead
      have hvalue : Nat.ofDigitChars 10 (Nat.toDigits 10 (n / 10)) 0 = n / 10 :=
        Nat.ofDigitChars_ten_toDigits
      rw [htenth] at hvalue
      have hzero : Nat.ofDigitChars 10 ['0'] 0 = 0 := rfl
      omega

/-- The number of a byte. -/
def ofByte (b : UInt8) : Json := .number ⟨false, Nat.toDigits 10 b.toNat, [], none⟩

theorem isInteger_ofByte (b : UInt8) : IsInteger (ofByte b) b.toNat := by
  have h := IsInteger.nonneg (Nat.toDigits 10 b.toNat)
  rwa [Nat.ofDigitChars_ten_toDigits] at h

/-- A byte is written as its digits. -/
theorem spelled_ofByte (b : UInt8) :
    Token.Spelled (.number ⟨false, Nat.toDigits 10 b.toNat, [], none⟩)
      (Nat.toDigits 10 b.toNat) := by
  have h := Numeral.Spelled.mk false _ (whole_toDigits b.toNat) .none .none
  simpa using Token.Spelled.number h

/-- Texts with something between them are the first one and, behind what is between, each other
one. -/
theorem intercalate_cons (between first : List Char) (rest : List (List Char)) :
    between.intercalate (first :: rest) = first ++ rest.flatMap (between ++ ·) := by
  induction rest generalizing first with
  | nil => simp
  | cons second rest ih =>
    rw [List.intercalate_cons_cons, ih, List.flatMap_cons, List.append_assoc, List.append_assoc]

variable {tokens : List Token} {text : List Char}

theorem written_moreItems (content : Bytes) (h : Written tokens text) :
    Written (moreItems (content.map ofByte) ++ tokens)
      ((content.map fun b => Nat.toDigits 10 b.toNat).flatMap ([','] ++ ·) ++ ']' :: text) := by
  induction content with
  | nil =>
    have hend : Written (.closeBracket :: tokens) ([']'] ++ text) := .append .closeBracket h
    exact hend
  | cons b content ih =>
    have hbytes := Written.append .comma (.append (spelled_ofByte b) ih)
    simpa [moreItems, ofByte, Json.tokens] using hbytes

/-- The array of bytes is written as their digits with commas between them. -/
theorem written_items (content : Bytes) (h : Written tokens text) :
    Written (Json.tokens (.items (content.map ofByte)) ++ tokens)
      ('[' :: ([','].intercalate (content.map fun b => Nat.toDigits 10 b.toNat) ++
        ']' :: text)) := by
  cases content with
  | nil => exact .append .openBracket (.append .closeBracket h)
  | cons b content =>
    have hbytes := Written.append .openBracket (.append (spelled_ofByte b)
      (written_moreItems content h))
    rw [List.map_cons, List.map_cons, intercalate_cons]
    simpa [ofByte, Json.tokens] using hbytes

end Json

namespace Bytes

/-- The characters of a list of texts with something around and between them. -/
theorem toList_listing (head between tail : String) (parts : List String) :
    (head ++ between.intercalate parts ++ tail).toList =
      head.toList ++ (between.toList.intercalate (parts.map String.toList) ++ tail.toList) := by
  rw [String.toList_append, String.toList_append, String.toList_intercalate, List.append_assoc]

theorem toList_digits (content : Bytes) :
    (content.map fun b => toString b.toNat).map String.toList =
      content.map fun b => Nat.toDigits 10 b.toNat := by
  rw [List.map_map]
  refine List.map_congr_left fun b _ => ?_
  rw [Function.comp_apply, Nat.toString_eq_ofList_toDigits, String.toList_ofList]

/-- The text of a buffer is one of an object with the fields of its bytes. -/
theorem spelled_json (content : Bytes) :
    (Json.fields [(some "type".toList, .text (some Json.bufferType.toList)),
      (some "data".toList, .items (content.map Json.ofByte))]).Spelled content.json.toList := by
  have htype := Json.Token.spelled_plain "type".toList (by decide)
  have hbuffer := Json.Token.spelled_plain Json.bufferType.toList (by decide)
  have hdata := Json.Token.spelled_plain "data".toList (by decide)
  have hend : Json.Written [.closeBrace] ['\x7d'] := .append .closeBrace (.nil [] nofun)
  have hwritten := Json.Written.append .openBrace (.append htype (.append .colon (.append hbuffer
    (.append .comma (.append hdata (.append .colon (Json.written_items content hend)))))))
  have htext := toList_listing "\x7b\"type\":\"Buffer\",\"data\":[" "," "]\x7d"
    (content.map fun b => toString b.toNat)
  rw [toList_digits] at htext
  exact (congrArg (Json.Written _) htext).mpr hwritten

/-- The byte of an integer has its value modulo `256`. -/
theorem toNat_ofNat_emod (i : Int) : ((UInt8.ofNat (i % 256).toNat).toNat : Int) = i % 256 := by
  have hnonneg := Int.emod_nonneg i (b := 256) (by decide)
  have hlt := Int.emod_lt_of_pos i (b := 256) (by decide)
  rw [UInt8.toNat_ofNat_of_lt' (by change _ < 256; omega), Int.toNat_of_nonneg hnonneg]

/-- A byte is what it is modulo `256`. -/
theorem ofNat_emod_toNat (b : UInt8) : UInt8.ofNat ((b.toNat : Int) % 256).toNat = b := by
  have hlt : b.toNat < 256 := b.toNat_lt
  have hvalue := toNat_ofNat_emod b.toNat
  exact UInt8.toNat_inj.mp (by omega)

/-- The text of a buffer is read as its bytes. -/
theorem ofJson_json (content : Bytes) : ofJson content.json = .ok content := by
  have hfields : Json.BufferFields [(some "type".toList, .text (some Json.bufferType.toList)),
      (some "data".toList, .items (content.map Json.ofByte))] (content.map Json.ofByte) :=
    ⟨[], .refl _, nofun⟩
  have hvalues : List.Forall₂ Json.IsInteger (content.map Json.ofByte)
      (content.map fun b => (b.toNat : Int)) := by
    rw [List.forall₂_map_left_iff, List.forall₂_map_right_iff, List.forall₂_same]
    exact fun b _ => Json.isInteger_ofByte b
  have hints : ∀ i ∈ content.map fun b => (b.toNat : Int), i.natAbs ≤ 2 ^ 53 := by
    intro i hi
    obtain ⟨b, -, rfl⟩ := List.mem_map.mp hi
    have hlt : b.toNat < 256 := b.toNat_lt
    omega
  rw [ofJson_of_spelled content.spelled_json hfields hvalues hints, List.map_map]
  simp [Function.comp_def, ofNat_emod_toNat]

end Bytes

/-! ## Numbers as arguments -/

/-- The bytes of integers that are given as numbers. -/
theorem Content.ofValues_ofInt {ints : List Int} (h : ∀ i ∈ ints, i.natAbs ≤ 2 ^ 53) :
    Content.ofValues (ints.map Value.ofInt) =
      .ok (ints.map fun i => UInt8.ofNat (i % 256).toNat) := by
  induction ints with
  | nil => rfl
  | cons i ints ih =>
    obtain ⟨hi, hints⟩ := List.forall_mem_cons.mp h
    have hbyte : Value.toByte (.ofInt i) = .ok (Binary64.ofInt i).toByte := rfl
    rw [(Binary64.hasValue_ofInt_of_le hi).toByte] at hbyte
    have hrest := ih hints
    unfold ofValues at hrest ⊢
    rw [List.map_cons, List.mapM_cons, hbyte, ok_bind, hrest]
    rfl

/-- A buffer that is made from values has the bytes that they give. -/
theorem Window.run_ofValues {s : Store} {values : List (Value Window)}
    (hv : ∀ v ∈ values, ∀ w ∈ v.buffers, s.Holds w) :
    (ofValues values).run s =
      s.added (liftM (Content.ofValues (values.map (·.map s.read)))) := by
  rw [ofValues, EStateM.run_bind, run_askAll hv, Content.ofValues]
  cases (values.map (·.map s.read)).mapM Value.toByte <;> rfl

namespace Session

variable {text : String} {content : Bytes} {ints : List Int}

/-- An action that makes a block makes a buffer. -/
theorem carryOut_added {s : Session} {p : Action Store Window}
    (h : p.run s.store = s.store.added (.ok content)) :
    s.carryOut (.ok p) = (.ok (s.store.adopt content).1,
      { s with store := (s.store.adopt content).2 }) := by
  rw [carryOut, h]
  rfl

/-- A text that is read makes a new block. -/
theorem make_ofJson (s : Session) (h : Bytes.ofJson text = .ok content) :
    s.make (.ofJson text) = (.ok (s.store.adopt content).1,
      { s with store := (s.store.adopt content).2 }) := by
  have hmaker : s.maker (.ofJson text) = .ok (Store.wrap content) := by
    rw [maker, h]
    rfl
  rw [make, hmaker, carryOut_added rfl]
  all_goals nofun

/-- Values that are integers make a new block. -/
theorem make_ofInts (s : Session) (h : Content.ofValues (ints.map Value.ofInt) = .ok content) :
    s.make (.ofValues (ints.map Value.ofInt)) = (.ok (s.store.adopt content).1,
      { s with store := (s.store.adopt content).2 }) := by
  have harguments : (ints.map Value.ofInt).mapM s.argument = .ok (ints.map Value.ofInt) := by
    clear h
    induction ints with
    | nil => rfl
    | cons i ints ih =>
      have hnumber : s.argument (.ofInt i) = .ok (.ofInt i) := rfl
      rw [List.map_cons, List.mapM_cons, hnumber, ok_bind, ih]
      rfl
  have hmaker : s.maker (.ofValues (ints.map Value.ofInt)) =
      .ok (Window.ofValues (ints.map Value.ofInt)) := by
    rw [maker, harguments]
    rfl
  have hrun : (Window.ofValues (ints.map Value.ofInt)).run s.store =
      s.store.added (.ok content) := by
    rw [Window.run_ofValues (by simp), List.map_map]
    simp only [Function.comp_def, Value.map_ofInt]
    rw [h]
    rfl
  rw [make, hmaker, carryOut_added hrun]
  all_goals nofun

/-- The text that a buffer is written as is read as a new buffer of the same bytes. So is any text
of an object that has the fields of a buffer, in any order and among others, with any blanks: the
bytes are its integers modulo `256`, and the buffer is the one that is made from the integers. -/
theorem json_round_trip (s : Session) :
    (∀ w : Window, ∃ v t, s.make (.ofJson (s.store.read w).json) = (.ok v, t) ∧
      s.store.Adds (s.store.read w) v t.store) ∧
    ∀ (text : String) (entries : List (Json.Quoted × Json)) (values : List Json)
      (ints : List Int), (Json.fields entries).Spelled text.toList →
      Json.BufferFields entries values → List.Forall₂ Json.IsInteger values ints →
      (∀ i ∈ ints, i.natAbs ≤ 2 ^ 53) →
      ∃ content v t, content.map (fun b : UInt8 => (b.toNat : Int)) = ints.map (· % 256) ∧
        s.make (.ofJson text) = (.ok v, t) ∧ s.store.Adds content v t.store ∧
        s.make (.ofValues (ints.map Value.ofInt)) = (.ok v, t) := by
  constructor
  · intro w
    exact ⟨_, _, s.make_ofJson (Bytes.ofJson_json _), s.store.adds_adopt _⟩
  · intro text entries values ints hspelled hfields hvalues hints
    have hread := Bytes.ofJson_of_spelled hspelled hfields hvalues hints
    have hmade := Content.ofValues_ofInt hints
    refine ⟨_, _, _, ?_, s.make_ofJson hread, s.store.adds_adopt _, s.make_ofInts hmade⟩
    rw [List.map_map]
    exact List.map_congr_left fun i _ => Bytes.toNat_ofNat_emod i

/-- The numbers before the type, one of them below zero and one beyond a byte; another field, with
an object and an escape in it; and blanks of all kinds. -/
theorem json_round_trip_shuffled :
    let text :=
      "\x7b \"data\":[256 ,\n-1],\"x\":[1.5E+3,\x7b\x7d,\"\\u00e4\"]\t,\"type\":\"Buffer\"\x7d\r"
    let values : List Json :=
      [.number ⟨false, ['2', '5', '6'], [], none⟩, .number ⟨true, ['1'], [], none⟩]
    let other : Json :=
      .items [.number ⟨false, ['1'], ['5'], some (false, ['3'])⟩, .fields [], .text (some ['ä'])]
    let entries : List (Json.Quoted × Json) :=
      [(some "data".toList, .items values), (some "x".toList, other),
        (some "type".toList, .text (some "Buffer".toList))]
    (Json.fields entries).Spelled text.toList ∧ Json.BufferFields entries values ∧
      List.Forall₂ Json.IsInteger values [256, -1] ∧
      (∀ i ∈ [256, (-1 : Int)], i.natAbs ≤ 2 ^ 53) ∧
      ∃ content v t, content.map (fun b : UInt8 => (b.toNat : Int)) = [0, 255] ∧
        empty.make (.ofJson text) = (.ok v, t) ∧ empty.store.Adds content v t.store ∧
        empty.make (.ofValues [.ofInt 256, .ofInt (-1)]) = (.ok v, t) := by
  intro text values other entries
  have hspelled : (Json.fields entries).Spelled text.toList := by
    have hdata := Json.Token.spelled_plain "data".toList (by decide)
    have hother := Json.Token.spelled_plain "x".toList (by decide)
    have htype := Json.Token.spelled_plain "type".toList (by decide)
    have hbuffer := Json.Token.spelled_plain "Buffer".toList (by decide)
    have hpositive := Json.Token.Spelled.number
      (.mk false ['2', '5', '6'] (by decide) .none .none)
    have hnegative := Json.Token.Spelled.number
      (.mk true ['1'] (by decide) .none .none)
    have hreal := Json.Token.Spelled.number
      (.mk false ['1'] (by decide) (.point ['5'] (by decide))
        (.power 'E' false ['+'] ['3'] (by decide) (by decide) (by decide)))
    have hdigits : ∀ x ∈ ['0', '0', 'e', '4'], x.toLower ∈ Text.hexDigits := by
      rw [List.forall_mem_cons, List.forall_mem_cons, List.forall_mem_cons, List.forall_mem_cons]
      exact ⟨by decide, by decide, by decide, by decide, nofun⟩
    have hescape := Json.Token.Spelled.text
      (.cons (.unit '0' '0' 'e' '4' hdigits) .nil)
    have hend := Json.Written.append .closeBrace (.nil ['\r'] (by decide))
    have htyped := Json.Written.cons ['\t'] (by decide) .comma
      (.append htype (.append .colon (.append hbuffer hend)))
    have hmore := Json.Written.append .comma (.append hother (.append .colon (.append .openBracket
      (.append hreal (.append .comma (.append .openBrace (.append .closeBrace (.append .comma
        (.append hescape (.append .closeBracket htyped))))))))))
    have hwritten := Json.Written.append .openBrace (.cons [' '] (by decide) hdata
      (.append .colon (.append .openBracket (.append hpositive (.cons [' '] (by decide)
        .comma (.cons ['\n'] (by decide) hnegative (.append .closeBracket hmore)))))))
    refine (congrArg₂ Json.Written ?_ ?_).mpr hwritten
    · rfl
    · decide
  have hfields : Json.BufferFields entries values :=
    ⟨[(some "x".toList, other)], @List.perm_append_comm _ [_, _] [_], by simp⟩
  have hvalues : List.Forall₂ Json.IsInteger values [256, -1] :=
    .cons (.nonneg ['2', '5', '6']) (.cons (.neg ['1']) .nil)
  have hints : ∀ i ∈ [256, (-1 : Int)], i.natAbs ≤ 2 ^ 53 := by decide
  exact ⟨hspelled, hfields, hvalues, hints,
    (json_round_trip empty).2 text entries values _ hspelled hfields hvalues hints⟩

end Session

end Octets
