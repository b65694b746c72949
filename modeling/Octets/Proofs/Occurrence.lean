import Octets.Proofs.Position
import Octets.Proofs.Search

/-!
# Searches are exact

A search for bytes gives the first place at which they stand, counted from where the search begins
and in its direction; an empty needle is found where the search begins, moved into the bytes. The
code reaches this through an offset of 32 bits, through several tests of lengths, and through a
scan of a range that is cut once more; none of them loses a place.

* `Search.beginning` — where a search is asked to begin, without any of these bounds;
* `Search.Exact` — what an answer to a search must be;
* `Search.find_first` — a scan gives the first place from where it begins;
* `Search.task_cases` — what the tests in front of the scan leave of it;
* `Search.searchBytes_exact` — the answer is that;
* `Search.indexOf_exact` — and so it is for windows and arguments of any kind.
-/

namespace Octets

namespace Search

/-! ## What an answer must be -/

/-- The place `j` is at `i` or further on in the direction of a search. -/
def Direction.Ahead (d : Direction) (i j : Int) : Prop :=
  match d with
  | .forward => i ≤ j
  | .backward => j ≤ i

/-- The needle stands at a place of the bytes. -/
def Occurs (hay needle : Bytes) (i : Nat) : Prop := needle <+: hay.drop i

/-- Where a search among `length` bytes is asked to begin by a number: rounded toward zero, and
counted from the end where that is negative. What is not a number asks for the end at which the
direction begins. -/
def beginning (length : Nat) (d : Direction) (x : Binary64) : Int :=
  if x.isNaN then
    match d with
    | .forward => 0
    | .backward => length
  else if x.trunc < 0 then x.trunc + length
  else x.trunc

/-- The first place ahead of `p` at which the needle stands, or that there is none. -/
def Finds (hay needle : Bytes) (d : Direction) (p : Int) : Option Nat → Prop
  | some i => d.Ahead p i ∧ Occurs hay needle i ∧
      ∀ j : Nat, d.Ahead p j → Occurs hay needle j → d.Ahead i j
  | none => ∀ j : Nat, d.Ahead p j → ¬Occurs hay needle j

/-- What the answer to a search from `p` on must be: `p` itself, moved into the bytes, for an empty
needle, and else the first place ahead. -/
def Exact (hay needle : Bytes) (d : Direction) (p : Int) (answer : Option Nat) : Prop :=
  if needle = [] then answer = some (max 0 (min p hay.length)).toNat
  else Finds hay needle d p answer

/-- The first place in the direction of a search at which `P` holds, or that there is none. -/
def First (d : Direction) (P : Nat → Prop) : Option Nat → Prop
  | some i => P i ∧ ∀ j, P j → d.Ahead i j
  | none => ∀ j, ¬P j

/-- The bytes that an argument stands for as a needle, under an encoding other than utf16le. A
number is one byte. -/
inductive Spells (encoding : Operand) : Operand → Bytes → Prop where
  | number {x : Binary64} {b : UInt8} (hfinite : x.isFinite = true)
      (hbyte : (b.toNat : Int) = x.trunc % 256) : Spells encoding (.number x) [b]
  | notFinite {x : Binary64} (hfinite : x.isFinite = false) : Spells encoding (.number x) [0]
  | text {s : String} {e : Encoding} {content : Bytes} (hempty : encoding ≠ .text "")
      (hname : encoding? encoding = some e) (hwide : e ≠ .utf16le)
      (hcontent : e.encode s = .ok content) : Spells encoding (.text s) content
  | bytes {content : Bytes} (hwide : encoding? encoding ≠ some .utf16le) :
      Spells encoding (.bytes content) content
  | buffer {content : Bytes} (hwide : encoding? encoding ≠ some .utf16le) :
      Spells encoding (.buffer content) content

/-! ## Places -/

variable {hay needle : Bytes} {d : Direction} {i j : Nat} {p : Int}

theorem Direction.ahead_refl (d : Direction) (i : Int) : d.Ahead i i := by
  cases d <;> exact Int.le_refl i

theorem Direction.ahead_antisymm {i j : Int} (hij : d.Ahead i j) (hji : d.Ahead j i) : i = j := by
  cases d with
  | forward => exact Int.le_antisymm hij hji
  | backward => exact Int.le_antisymm hji hij

section

variable {α : Type} {hay needle : List α}

theorem occursAt_iff_isPrefix [BEq α] [LawfulBEq α] :
    occursAt hay needle i = true ↔ needle <+: hay.drop i := by
  rw [occursAt_iff, List.prefix_iff_eq_take, eq_comm]

/-- There is room for the needle where it stands. -/
theorem add_length_le (h : needle <+: hay.drop i) (hne : needle ≠ []) :
    i + needle.length ≤ hay.length := by
  have hlen := h.length_le
  have hpos := List.length_pos_iff.mpr hne
  rw [List.length_drop] at hlen
  omega

end

theorem Occurs.add_le (h : Occurs hay needle i) (hne : needle ≠ []) :
    i + needle.length ≤ hay.length :=
  add_length_le h hne

/-! ## First places -/

theorem finds_iff_first {answer : Option Nat} :
    Finds hay needle d p answer ↔
      First d (fun i => d.Ahead p i ∧ Occurs hay needle i) answer := by
  cases answer <;> simp [Finds, First, and_assoc]

theorem First.congr {P Q : Nat → Prop} {answer : Option Nat} (hPQ : ∀ i, P i ↔ Q i)
    (h : First d Q answer) : First d P answer := by
  obtain rfl : P = Q := funext fun i => propext (hPQ i)
  exact h

/-- There is one first place at most. -/
theorem First.eq_some {P : Nat → Prop} {answer : Option Nat} (h : First d P answer) (hi : P i)
    (hfirst : ∀ j, P j → d.Ahead i j) : answer = some i := by
  cases answer with
  | none => exact absurd hi (h i)
  | some k =>
    obtain ⟨hk, hlast⟩ := h
    have heq : (k : Int) = i := Direction.ahead_antisymm (hlast i hi) (hfirst k hk)
    rw [Int.ofNat_inj.mp heq]

/-- The places are looked at in the order of the direction. -/
theorem positions_ordered (last start : Nat) (d : Direction) :
    (positions last start d).Pairwise fun i j : Nat => d.Ahead i j := by
  cases d with
  | forward =>
    refine (List.pairwise_lt_range' (n := last + 1 - start)).imp fun {i j} hlt => ?_
    exact Int.ofNat_le.mpr (Nat.le_of_lt hlt)
  | backward =>
    refine List.pairwise_reverse.mpr (List.pairwise_lt_range.imp fun {i j} hlt => ?_)
    exact Int.ofNat_le.mpr (Nat.le_of_lt hlt)

/-- In an ordered list, what is found first comes before everything that could be found. -/
theorem find?_ordered {α : Type} {R : α → α → Prop} (hrefl : ∀ a, R a a) {test : α → Bool}
    {items : List α} (hordered : items.Pairwise R) {a b : α} (hfound : items.find? test = some a)
    (hb : b ∈ items) (htest : test b = true) : R a b := by
  induction items with
  | nil => nomatch hb
  | cons c rest ih =>
    obtain ⟨hfirst, hrest⟩ := List.pairwise_cons.mp hordered
    rw [List.find?_cons] at hfound
    cases hc : test c with
    | true =>
      rw [hc] at hfound
      obtain rfl : c = a := Option.some.inj hfound
      rcases List.mem_cons.mp hb with rfl | hmem
      · exact hrefl b
      · exact hfirst b hmem
    | false =>
      rw [hc] at hfound
      rcases List.mem_cons.mp hb with rfl | hmem
      · rw [htest] at hc
        nomatch hc
      · exact ih hrest hfound hmem

/-- A place is looked at if it lies ahead of the start and there is room for the needle. -/
theorem mem_positions_iff {last start : Nat} :
    i ∈ positions last start d ↔ d.Ahead start i ∧ i ≤ last := by
  cases d with
  | forward =>
    rw [mem_positions_forward]
    simp [Direction.Ahead]
  | backward =>
    rw [mem_positions_backward]
    simp [Direction.Ahead]

/-- A scan from a place on finds the first place from there on. -/
theorem find_first {α : Type} [BEq α] [LawfulBEq α] {hay needle : List α} (hne : needle ≠ [])
    (start : Nat) (d : Direction) :
    First d (fun i => d.Ahead start i ∧ needle <+: hay.drop i) (find hay needle start d) := by
  have hmem : ∀ j : Nat, d.Ahead start j → needle <+: hay.drop j →
      j ∈ positions (hay.length - needle.length) start d := by
    intro j hahead hoccurs
    exact mem_positions_iff.mpr ⟨hahead, Nat.le_sub_of_add_le (add_length_le hoccurs hne)⟩
  unfold find
  split
  · rename_i hlong
    rintro j ⟨-, hoccurs⟩
    have hroom := add_length_le hoccurs hne
    exact Nat.not_le.mpr hlong (Nat.le_of_add_left_le hroom)
  · cases hfind : (positions (hay.length - needle.length) start d).find? (occursAt hay needle) with
    | none =>
      rintro j ⟨hahead, hoccurs⟩
      have hnot := List.find?_eq_none.mp hfind j (hmem j hahead hoccurs)
      exact hnot (occursAt_iff_isPrefix.mpr hoccurs)
    | some i =>
      have hlooked := mem_positions_iff.mp (List.mem_of_find?_eq_some hfind)
      refine ⟨⟨hlooked.1, occursAt_iff_isPrefix.mp (List.find?_some hfind)⟩, ?_⟩
      rintro j ⟨hahead, hoccurs⟩
      exact find?_ordered (R := fun i j : Nat => d.Ahead i j) (fun a => d.ahead_refl a)
        (positions_ordered _ _ d) hfind (hmem j hahead hoccurs) (occursAt_iff_isPrefix.mpr hoccurs)

/-! ## Where a search begins -/

/-- Among the bytes of a block, where a search begins is not wrapped. -/
theorem startPosition_eq {length needleLength : Nat} {offset : Int} (hlength : length ≤ maxLength)
    (hneedle : needleLength ≤ length) (hlo : -0x80000000 ≤ offset) (hhi : offset ≤ 0x7FFFFFFF) :
    startPosition length offset needleLength d =
      if offset < 0 then
        if 0 ≤ length + offset then length + offset
        else if d = .forward ∨ needleLength = 0 then 0
        else -1
      else if offset + needleLength ≤ length then offset
      else if needleLength = 0 then (length : Int)
      else if d = .forward then -1
      else (length : Int) - 1 := by
  have hmax : maxLength = 2147483647 := rfl
  have hwrap : ∀ n : Int, -0x100000000 ≤ n → n ≤ 0x100000000 → wrapped n = n := by
    intro n hn hn'
    exact wrapped_eq_self (by unfold minInt64; omega) (by unfold maxInt64; omega)
  unfold startPosition
  rw [hwrap (length + offset) (by omega) (by omega),
    hwrap (offset + needleLength) (by omega) (by omega), hwrap length (by omega) (by omega),
    hwrap (length - 1) (by omega) (by omega)]

/-- What a search works with instead of its beginning: an offset that still counts from the end
where it is negative, and that is kept in 32 bits. -/
structure Clamped (length : Nat) (offset p : Int) : Prop where
  lo : -0x80000000 ≤ offset
  hi : offset ≤ 0x7FFFFFFF
  nonneg : 0 ≤ offset → p = offset ∨ 0x7FFFFFFF ≤ offset ∧ offset ≤ p
  neg : offset < 0 → p = length + offset ∨ offset ≤ -0x80000000 ∧ p ≤ length + offset

theorem clamped_offset {length : Nat} (hlength : length ≤ maxLength) (d : Direction)
    (x : Binary64) : Clamped length (offset length d x) (beginning length d x) := by
  have hmax : maxLength = 2147483647 := rfl
  unfold offset beginning Binary64.truncClamped
  by_cases hnan : x.isNaN = true
  · rw [if_pos hnan, if_pos hnan]
    cases d <;> simp only <;> constructor <;> omega
  · rw [if_neg hnan, if_neg hnan, if_neg hnan]
    split <;> constructor <;> omega

/-- The same places with room for a needle lie ahead of where a search begins and of the start that
it works with; a start below zero means that there are none. -/
theorem startPosition_ahead {length needleLength : Nat} {offset : Int}
    (hlength : length ≤ maxLength) (hneedle : needleLength ≤ length) (hpos : 0 < needleLength)
    (h : Clamped length offset p) (hroom : i + needleLength ≤ length) :
    d.Ahead p i ↔ 0 ≤ startPosition length offset needleLength d ∧
      d.Ahead (startPosition length offset needleLength d) i := by
  have hmax : maxLength = 2147483647 := rfl
  obtain ⟨hlo, hhi, hnonneg, hneg⟩ := h
  rw [startPosition_eq hlength hneedle hlo hhi]
  by_cases hsign : offset < 0
  · rw [if_pos hsign]
    have hp := hneg hsign
    by_cases hinside : 0 ≤ length + offset
    · rw [if_pos hinside]
      cases d <;> simp only [Direction.Ahead] <;> omega
    · rw [if_neg hinside]
      cases d <;> simp only [Direction.Ahead] <;> simp <;> omega
  · rw [if_neg hsign]
    have hp := hnonneg (Int.not_lt.mp hsign)
    by_cases hfits : offset + needleLength ≤ length
    · rw [if_pos hfits]
      cases d <;> simp only [Direction.Ahead] <;> omega
    · rw [if_neg hfits, if_neg (Nat.ne_of_gt hpos)]
      cases d <;> simp only [Direction.Ahead] <;> simp <;> omega

/-- A search for an empty needle begins at the place that it answers. -/
theorem startPosition_zero {length : Nat} {offset : Int} (hlength : length ≤ maxLength)
    (h : Clamped length offset p) :
    startPosition length offset 0 d = max 0 (min p length) := by
  have hmax : maxLength = 2147483647 := rfl
  obtain ⟨hlo, hhi, hnonneg, hneg⟩ := h
  rw [startPosition_eq hlength (Nat.zero_le _) hlo hhi]
  by_cases hsign : offset < 0
  · rw [if_pos hsign]
    have hp := hneg hsign
    by_cases hinside : 0 ≤ length + offset
    · rw [if_pos hinside]
      omega
    · rw [if_neg hinside, if_pos (Or.inr rfl)]
      omega
  · rw [if_neg hsign]
    have hp := hnonneg (Int.not_lt.mp hsign)
    by_cases hfits : offset + (0 : Nat) ≤ length
    · rw [if_pos hfits]
      omega
    · rw [if_neg hfits, if_pos rfl]
      omega

/-- A search that looks for its needle forward begins where it is asked to, or at the first byte
where that is in front of it. -/
theorem startPosition_forward {length needleLength : Nat} {offset : Int}
    (hlength : length ≤ maxLength) (hneedle : needleLength ≤ length) (hpos : 0 < needleLength)
    (h : Clamped length offset p)
    (hnonneg : 0 ≤ startPosition length offset needleLength .forward) :
    startPosition length offset needleLength .forward = max p 0 := by
  have hmax : maxLength = 2147483647 := rfl
  obtain ⟨hlo, hhi, hoffset, hneg⟩ := h
  rw [startPosition_eq hlength hneedle hlo hhi] at hnonneg ⊢
  by_cases hsign : offset < 0
  · rw [if_pos hsign] at hnonneg ⊢
    have hp := hneg hsign
    by_cases hinside : 0 ≤ length + offset
    · rw [if_pos hinside]
      omega
    · rw [if_neg hinside, if_pos (Or.inl rfl)]
      omega
  · rw [if_neg hsign] at hnonneg ⊢
    have hp := hoffset (Int.not_lt.mp hsign)
    by_cases hfits : offset + needleLength ≤ length
    · rw [if_pos hfits]
      omega
    · rw [if_neg hfits, if_neg (Nat.ne_of_gt hpos), if_pos rfl] at hnonneg
      exact absurd hnonneg (by decide)

/-- What the tests leave of a search for a needle that is not empty: nothing, where no place ahead
has room for the needle, and else a scan that has the same places ahead of it. -/
theorem task_cases {length needleLength : Nat} {offset : Int} {wide : Bool}
    (hlength : length ≤ maxLength) (h : Clamped length offset p) (hpos : 0 < needleLength)
    (hwide : wide = true → 2 ≤ needleLength) (d : Direction) :
    (task length needleLength offset d wide = .answered none ∧
      ∀ i : Nat, i + needleLength ≤ length → ¬d.Ahead p i) ∨
    ∃ start : Nat,
      task length needleLength offset d wide =
        (if wide then .units (start / 2) else .bytes start) ∧
      (∀ i : Nat, i + needleLength ≤ length → (d.Ahead p i ↔ d.Ahead start i)) ∧
      (d = .forward → (start : Int) = max p 0 ∧ start + needleLength ≤ length) := by
  have hstart := fun (i : Nat) (hle : needleLength ≤ length) (hroom : i + needleLength ≤ length) =>
    startPosition_ahead (d := d) hlength hle hpos h hroom
  have hforward : d = .forward → needleLength ≤ length →
      0 ≤ startPosition length offset needleLength d →
      startPosition length offset needleLength d = max p 0 := by
    rintro rfl hle
    exact startPosition_forward hlength hle hpos h
  unfold task
  rw [if_neg (Nat.ne_of_gt hpos)]
  generalize startPosition length offset needleLength d = start at hstart hforward ⊢
  by_cases hlong : length < needleLength
  · -- Whatever the start is, no place has room for the needle.
    refine Or.inl ⟨?_, fun i hroom => ?_⟩
    · simp [hlong]
    · exact absurd (Nat.le_of_add_left_le hroom) (Nat.not_le.mpr hlong)
  have hle := Nat.not_lt.mp hlong
  by_cases hbefore : start < 0
  · refine Or.inl ⟨by simp [hbefore], fun i hroom hahead => ?_⟩
    exact absurd ((hstart i hle hroom).mp hahead).1 (Int.not_le.mpr hbefore)
  have hnonneg := Int.not_lt.mp hbefore
  obtain ⟨k, rfl⟩ := Int.eq_ofNat_of_zero_le hnonneg
  rw [if_neg (show ¬(length = 0 ∨ (k : Int) < 0) by omega), Int.toNat_natCast]
  by_cases hbehind : d = .forward ∧ length < k + needleLength
  · refine Or.inl ⟨if_pos (Or.inr hbehind), fun i hroom hahead => ?_⟩
    obtain ⟨rfl, hlate⟩ := hbehind
    have hki : (k : Int) ≤ i := ((hstart i hle hroom).mp hahead).2
    omega
  refine Or.inr ⟨k, ?_, fun i hroom => ?_, fun hd => ⟨hforward hd hle hnonneg, ?_⟩⟩
  · rw [if_neg (not_or.mpr ⟨hlong, hbehind⟩)]
    cases wide with
    | false => rfl
    | true =>
      have htwo := hwide rfl
      rw [if_pos rfl, if_pos rfl, if_neg (show ¬(length < 2 ∨ needleLength < 2) by omega)]
  · rw [hstart i hle hroom, and_iff_right hnonneg]
  · exact Nat.not_lt.mp fun hlate => hbehind ⟨hd, hlate⟩

/-! ## Searches -/

/-- The tests that come before the scan, and the scan itself, answer exactly. -/
theorem searchBytes_exact {offset : Int} (hlength : hay.length ≤ maxLength)
    (h : Clamped hay.length offset p) (needle : Bytes) (d : Direction) :
    Exact hay needle d p (searchBytes hay needle offset d false) := by
  unfold Exact searchBytes
  by_cases hne : needle = []
  · subst hne
    simp only [task, List.length_nil, if_true, startPosition_zero hlength h]
  · rw [if_neg hne, finds_iff_first]
    have hpos := List.length_pos_iff.mpr hne
    obtain ⟨htask, hroom⟩ | ⟨start, htask, hahead, -⟩ := task_cases hlength h hpos
        (fun hwide => absurd hwide Bool.false_ne_true) d
    · rw [htask]
      rintro i ⟨hi, hoccurs⟩
      exact hroom i (hoccurs.add_le hne) hi
    · rw [htask]
      refine First.congr (fun i => ?_) (find_first hne start d)
      exact and_congr_left fun hoccurs => hahead i (add_length_le hoccurs hne)

/-- What an argument stands for as a needle is what is looked for. -/
theorem Spells.needle_eq_ok {encoding value : Operand} {content : Bytes}
    (h : Spells encoding value content) :
    Search.needle value encoding = .ok ⟨content, false⟩ := by
  cases h with
  | @number x b hfinite hbyte =>
    have hb : x.toByte = b := by
      have hmod : (x.trunc % 256).toNat = b.toNat := by omega
      rw [Binary64.toByte, if_pos hfinite, hmod, UInt8.ofNat_toNat]
    rw [needle, hb]
  | notFinite hfinite =>
    rw [needle, Binary64.toByte, hfinite]
    rfl
  | @text s e content hempty hname hwide hcontent =>
    have hnamed : (encoding == .text "") = false := beq_eq_false_iff_ne.mpr hempty
    have hbytes : (e == Encoding.utf16le) = false := beq_eq_false_iff_ne.mpr hwide
    rw [needle, textNeedle, hnamed, if_neg Bool.false_ne_true, hname]
    show (e.encode s).map _ = _
    rw [hcontent, hbytes]
    rfl
  | bytes hwide =>
    rw [needle, isWide, beq_eq_false_iff_ne.mpr hwide]
  | buffer hwide =>
    rw [needle, isWide, beq_eq_false_iff_ne.mpr hwide]

/-! ## Searches in windows -/

variable {s : Store} {w : Window} {value position encoding : Value Window}

/-- A search in a window that is not longer than a block may be ends in an exact answer, for every
needle, every number in the place of the offset and both directions. A text in the place of the
offset names the encoding, and is not a number. -/
theorem indexOf_exact (hw : s.Holds w) (hlength : w.length ≤ maxLength)
    (hvalue : ∀ v ∈ value.buffers, s.Holds v) (hposition : ∀ v ∈ position.buffers, s.Holds v)
    (hencoding : ∀ v ∈ encoding.buffers, s.Holds v) {x : Binary64}
    (hx : number (position.map s.read) = .ok x) {needle : Bytes}
    (hneedle : Spells (encodingOf (position.map s.read) (encoding.map s.read)) (value.map s.read)
      needle) (d : Direction) :
    ∃ answer, (w.indexOf value position encoding d).run s = .ok answer s ∧
      Exact (s.read w) needle d (beginning w.length d x) answer := by
  have hread : (s.read w).length = w.length := Store.length_read hw
  have hclamped : Clamped (s.read w).length (offset (s.read w).length d x)
      (beginning w.length d x) := by
    rw [hread]
    exact clamped_offset hlength d x
  refine ⟨_, ?_, searchBytes_exact (by rwa [hread]) hclamped needle d⟩
  rw [w.run_indexOf d hw hvalue hposition hencoding, Content.indexOf, hx]
  show Action.outcome (liftM (Search.needle _ _ >>= _)) s = _
  rw [hneedle.needle_eq_ok]
  rfl

/-- A search backward from one and a half bytes before the end, for bytes that overlap the window
in which they are looked for. -/
theorem indexOf_exact_overlap :
    let s : Store := ⟨[[1, 2, 1, 2, 1]]⟩
    let x : Binary64 := .ofBits 0xBFF8000000000000
    ((⟨0, 1, 4⟩ : Window).indexOf (.buffer ⟨0, 0, 2⟩) (.number x) .undefined .backward).run s =
        .ok (some 1) s ∧
      beginning 4 .backward x = 3 ∧ Exact [2, 1, 2, 1] [1, 2] .backward 3 (some 1) := by
  intro s x
  have hoffset : offset 4 .backward x = -1 := by decide +kernel
  have hrun : ((⟨0, 1, 4⟩ : Window).indexOf (.buffer ⟨0, 0, 2⟩) (.number x) .undefined
      .backward).run s = .ok (some 1) s := by
    show Action.outcome (locateBytes [2, 1, 2, 1] [1, 2] (offset 4 .backward x) .backward false) s =
      _
    rw [hoffset]
    rfl
  have hbeginning : beginning 4 .backward x = 3 := by decide +kernel
  obtain ⟨answer, hanswer, hexact⟩ := @indexOf_exact s ⟨0, 1, 4⟩ (.buffer ⟨0, 0, 2⟩) (.number x)
    .undefined (by decide) (by decide) (by decide) (by decide) (by decide) x rfl [1, 2]
    (.buffer (by decide)) .backward
  rw [hanswer] at hrun
  obtain rfl : answer = some 1 := (EStateM.Result.ok.inj hrun).1
  rw [hbeginning] at hexact
  exact ⟨hanswer, hbeginning, hexact⟩

/-- A text in the place of the offset is not the number that it spells: the search begins at the
first byte and not at the second one, and finds what stands before it. -/
theorem indexOf_text_position :
    let s : Store := ⟨[[1, 2, 1]]⟩
    let position : Value Window := .text "1"
    (position.map s.read).toNumber = .ok (.ofNat 1) ∧
      ((⟨0, 0, 3⟩ : Window).indexOf (.bytes [1]) position .undefined .forward).run s =
        .ok (some 0) s ∧
      beginning 3 .forward (.ofNat 1) = 1 ∧ ¬Exact [1, 2, 1] [1] .forward 1 (some 0) := by
  have hnumber : Binary64.ofText "1" = .ofNat 1 := by decide +kernel
  refine ⟨congrArg Except.ok hnumber, rfl, by decide +kernel, ?_⟩
  intro h
  rw [Exact, if_neg (by decide)] at h
  have hahead : (1 : Int) ≤ 0 := h.1
  omega

end Search

end Octets
