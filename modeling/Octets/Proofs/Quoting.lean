import Octets.Value.Shown

/-!
# Quoted text can be read back

Each character of a text is written between quotes as a code of one, two or four characters
(`Text.Quoted.Code`). No code is the beginning of another one: a backslash begins an escape, and the
character behind it says which and how long. A reader that takes one code after the other therefore
finds the characters again, whatever the text is.

A character between the quotes is escaped if an odd number of backslashes stands before it, which is
what reading from the left makes of them (`Text.Quoted.escapesNext`). After a whole code nothing is
pending, so that the codes can be looked at one by one.

* `Text.Quoted.code_escape` — what the code of a character can be;
* `Text.Quoted.escape_append_inj` — codes are told apart, and from what follows;
* `Text.Quoted.escapesNext_of_codes` — a quote between the quotes is escaped;
* `Value.shown_text_unambiguous` — both for the text of an argument as it is shown.
-/

namespace Octets

namespace Text

/-- An upper case digit has the value that it was written for. -/
theorem digitValue?_upperDigit {d : Nat} (h : d < 16) :
    digitValue? (upperDigit d).toNat = some d := by
  have every : ∀ d < 16, digitValue? (upperDigit d).toNat = some d := by decide
  exact every d h

namespace Quoted

/-! ## Codes -/

/-- A control character of the first 128 characters. -/
def IsControl (c : Char) : Prop := c.toNat < 0x20 ∨ c.toNat = 0x7F

instance (c : Char) : Decidable (IsControl c) :=
  inferInstanceAs (Decidable (c.toNat < 0x20 ∨ c.toNat = 0x7F))

/-- The characters that a text is put between. -/
def quotes : List Char := ['\'', '"', '\x60']

/-- The letters behind a backslash, and the characters that they stand for. -/
def letters : List (Char × Char) :=
  [('n', '\n'), ('t', '\t'), ('r', '\r'), ('b', '\x08'), ('f', '\x0c'), ('v', '\x0b'),
    ('\\', '\\')]

/-- What is written for a character between the given quotes. -/
inductive Code (quote : Char) : Char → List Char → Prop where
  | letter {e c : Char} (h : (e, c) ∈ letters) : Code quote c ['\\', e]
  | quote : Code quote quote ['\\', quote]
  /-- A control character that has no letter, by its number. -/
  | number {c : Char} (h : IsControl c) :
    Code quote c ['\\', 'x', upperDigit (c.toNat / 16), upperDigit (c.toNat % 16)]
  | plain {c : Char} (hquote : c ≠ quote) (hbackslash : c ≠ '\\') (h : ¬IsControl c) :
    Code quote c [c]

theorem code_escape (quote c : Char) : Code quote c (escape quote c) := by
  by_cases hletter : c ∈ letters.map Prod.snd
  · simp only [letters, List.map_cons, List.map_nil, List.mem_cons, List.not_mem_nil,
      or_false] at hletter
    rcases hletter with rfl | rfl | rfl | rfl | rfl | rfl | rfl <;> exact .letter (by decide)
  · simp only [letters, List.map_cons, List.map_nil, List.mem_cons, List.not_mem_nil, or_false,
      not_or] at hletter
    obtain ⟨hn, ht, hr, hb, hf, hv, hbackslash⟩ := hletter
    simp only [escape, hn, ht, hr, hb, hf, hv, hbackslash, if_false]
    split
    · rename_i hquote
      subst hquote
      exact .quote
    · rename_i hquote
      split
      · rename_i hcontrol
        exact .number (by simpa [IsControl] using hcontrol)
      · rename_i hcontrol
        exact .plain hquote hbackslash (by simpa [IsControl] using hcontrol)

theorem quoteFor_mem (text : List Char) : quoteFor text ∈ quotes := by
  unfold quoteFor
  split
  · decide
  · split
    · decide
    · split <;> decide

theorem not_isControl_of_mem_quotes {quote : Char} (h : quote ∈ quotes) : ¬IsControl quote := by
  simp only [quotes, List.mem_cons, List.not_mem_nil, or_false] at h
  obtain rfl | rfl | rfl := h <;> decide

/-- The numbers of control characters have two digits. -/
theorem IsControl.lt {c : Char} (h : IsControl c) : c.toNat < 0x80 := by
  unfold IsControl at h
  omega

/-! ## Reading codes -/

/-- The character of the first code, and what stands behind it. -/
def readCode : List Char → Option (Char × List Char)
  | '\\' :: 'x' :: high :: low :: rest => do
    let h ← digitValue? high.toNat
    let l ← digitValue? low.toNat
    return (Char.ofNat (16 * h + l), rest)
  | '\\' :: e :: rest => some ((letters.lookup e).getD e, rest)
  | c :: rest => some (c, rest)
  | [] => none

/-- What does not begin with a backslash begins with a character that stands for itself. -/
theorem readCode_of_ne {c : Char} (h : c ≠ '\\') (rest : List Char) :
    readCode (c :: rest) = some (c, rest) := by
  unfold readCode
  split
  · rename_i heq
    exact absurd (List.cons.inj heq).1 h
  · rename_i heq
    exact absurd (List.cons.inj heq).1 h
  · rename_i heq
    obtain ⟨rfl, rfl⟩ := List.cons.inj heq
    rfl
  · rename_i heq
    cases heq

namespace Code

variable {quote c : Char} {code : List Char}

/-- The code of a character is read as it, whatever stands behind. -/
theorem read (h : Code quote c code) (hquote : quote ∈ quotes) (rest : List Char) :
    readCode (code ++ rest) = some (c, rest) := by
  cases h with
  | letter h =>
    simp only [letters, List.mem_cons, Prod.mk.injEq, List.not_mem_nil, or_false] at h
    rcases h with ⟨rfl, rfl⟩ | ⟨rfl, rfl⟩ | ⟨rfl, rfl⟩ | ⟨rfl, rfl⟩ | ⟨rfl, rfl⟩ | ⟨rfl, rfl⟩ |
      ⟨rfl, rfl⟩ <;> rfl
  | quote =>
    simp only [quotes, List.mem_cons, List.not_mem_nil, or_false] at hquote
    rcases hquote with rfl | rfl | rfl <;> rfl
  | number h =>
    have hhigh := digitValue?_upperDigit (show c.toNat / 16 < 16 by have := h.lt; omega)
    have hlow := digitValue?_upperDigit (Nat.mod_lt c.toNat (show 0 < 16 by decide))
    simp only [List.cons_append, List.nil_append, readCode, hhigh, hlow]
    show some (Char.ofNat (16 * (c.toNat / 16) + c.toNat % 16), rest) = some (c, rest)
    rw [Nat.div_add_mod, Char.ofNat_toNat]
  | plain _ hbackslash _ => exact readCode_of_ne hbackslash rest

/-- No control character is written as it is. -/
theorem not_isControl (h : Code quote c code) (hquote : quote ∈ quotes) :
    ∀ d ∈ code, ¬IsControl d := by
  have hdigits : ∀ n < 16, ¬IsControl (upperDigit n) := by decide
  cases h with
  | letter h =>
    have hletters : ∀ entry ∈ letters, ¬IsControl entry.1 := by decide
    exact List.forall_mem_cons.mpr ⟨by decide, List.forall_mem_singleton.mpr (hletters _ h)⟩
  | quote =>
    exact List.forall_mem_cons.mpr ⟨by decide,
      List.forall_mem_singleton.mpr (not_isControl_of_mem_quotes hquote)⟩
  | number h =>
    have hhigh := hdigits (c.toNat / 16) (by have := h.lt; omega)
    have hlow := hdigits (c.toNat % 16) (Nat.mod_lt _ (by decide))
    exact List.forall_mem_cons.mpr ⟨by decide, List.forall_mem_cons.mpr ⟨by decide,
      List.forall_mem_cons.mpr ⟨hhigh, List.forall_mem_singleton.mpr hlow⟩⟩⟩
  | plain _ _ h => exact List.forall_mem_singleton.mpr h

end Code

/-- Codes are told apart, and from what follows. -/
theorem escape_append_inj {quote c d : Char} {a b : List Char} (hquote : quote ∈ quotes)
    (h : escape quote c ++ a = escape quote d ++ b) : c = d ∧ a = b := by
  have hread := (code_escape quote c).read hquote a
  rw [h, (code_escape quote d).read hquote b, Option.some.injEq, Prod.mk.injEq] at hread
  exact ⟨hread.1.symm, hread.2.symm⟩

theorem escape_ne_nil (quote c : Char) : escape quote c ≠ [] := by
  intro h
  have hcode := code_escape quote c
  rw [h] at hcode
  cases hcode

/-- Different texts have different codes. -/
theorem codes_injective {quote : Char} (hquote : quote ∈ quotes) :
    ∀ s t : List Char, s.flatMap (escape quote) = t.flatMap (escape quote) → s = t := by
  intro s
  induction s with
  | nil =>
    intro t h
    cases t with
    | nil => rfl
    | cons d t => exact absurd (List.append_eq_nil_iff.mp h.symm).1 (escape_ne_nil quote d)
  | cons c s ih =>
    intro t h
    cases t with
    | nil => exact absurd (List.append_eq_nil_iff.mp h).1 (escape_ne_nil quote c)
    | cons d t =>
      obtain ⟨rfl, hrest⟩ := escape_append_inj hquote h
      rw [ih t hrest]

/-- The quote is the first character, and the text is found again between the quotes. -/
theorem quoted_inj {s t : List Char} : quoted s = quoted t ↔ s = t := by
  refine ⟨fun h => ?_, fun h => h ▸ rfl⟩
  obtain ⟨hquote, hbody⟩ := List.cons.inj h
  rw [hquote] at hbody
  exact codes_injective (quoteFor_mem t) s t (List.append_inj_left' hbody rfl)

/-! ## Escaped characters -/

/-- The last character is a backslash that is not escaped itself, so that the next character is. -/
def escapesNext (text : List Char) : Bool :=
  text.foldl (fun escaped c => !escaped && c == '\\') false

/-- What is escaped in a text does not depend on what stands before it, unless this ends in such a
backslash. -/
theorem escapesNext_append {a : List Char} (h : escapesNext a = false) (b : List Char) :
    escapesNext (a ++ b) = escapesNext b := by
  unfold escapesNext at *
  rw [List.foldl_append, h]

namespace Code

variable {quote c : Char} {code : List Char}

/-- Nothing is pending after a code. -/
theorem escapesNext_eq (h : Code quote c code) : escapesNext code = false := by
  have hdigits : ∀ n < 16, (upperDigit n == '\\') = false := by decide
  cases h with
  | letter h => rfl
  | quote => rfl
  | number h =>
    have hlow := hdigits (c.toNat % 16) (Nat.mod_lt _ (by decide))
    simp [escapesNext, hlow]
  | plain _ hbackslash _ => simpa [escapesNext] using hbackslash

/-- A quote in a code is escaped: it stands directly behind the backslash. -/
theorem escapesNext_before (h : Code quote c code) (hquote : quote ∈ quotes)
    {before after : List Char} (hcode : code = before ++ quote :: after) :
    escapesNext before = true := by
  have hbackslash : quote ≠ '\\' := fun h => absurd (h ▸ hquote) (by decide)
  have hdigit : ∀ n < 16, quote ≠ upperDigit n := by
    have every : ∀ n < 16, upperDigit n ∉ quotes := by decide
    exact fun n hn heq => every n hn (heq ▸ hquote)
  have hpair : ∀ e, ['\\', e] = before ++ quote :: after → before = ['\\'] := fun e he => by
    simp only [List.cons_eq_append_iff, List.cons.injEq, hbackslash, false_and, and_false,
      false_or, List.nil_eq_append_iff, reduceCtorEq, exists_false, or_false] at he
    obtain ⟨_, rfl, rfl, -⟩ := he
    rfl
  cases h with
  | letter => rw [hpair _ hcode]; rfl
  | quote => rw [hpair _ hcode]; rfl
  | number h =>
    have hhigh := hdigit (c.toNat / 16) (by have := h.lt; omega)
    have hlow := hdigit (c.toNat % 16) (Nat.mod_lt _ (by decide))
    simp only [List.cons_eq_append_iff, List.cons.injEq, hbackslash, hhigh, hlow, false_and,
      and_false, false_or, List.nil_eq_append_iff, reduceCtorEq, or_false, exists_false] at hcode
    obtain ⟨_, rfl, rfl, -⟩ := hcode
    rfl
  | plain hne =>
    simp only [List.cons_eq_append_iff, List.cons.injEq, List.nil_eq_append_iff, reduceCtorEq,
      and_false, or_false, exists_false] at hcode
    exact absurd hcode.2.1.symm hne

end Code

/-- Nothing is pending after the codes of a text. -/
theorem escapesNext_codes (quote : Char) (text : List Char) :
    escapesNext (text.flatMap (escape quote)) = false := by
  induction text with
  | nil => rfl
  | cons c text ih =>
    rw [List.flatMap_cons, escapesNext_append (code_escape quote c).escapesNext_eq, ih]

/-- A quote among the codes of a text is escaped. -/
theorem escapesNext_of_codes {quote : Char} (hquote : quote ∈ quotes) {text after : List Char} :
    ∀ {before}, text.flatMap (escape quote) = before ++ quote :: after →
      escapesNext before = true := by
  induction text with
  | nil => simp
  | cons c text ih =>
    intro before h
    have hcode := code_escape quote c
    rw [List.flatMap_cons] at h
    rcases List.append_eq_append_iff.mp h with ⟨more, rfl, hmore⟩ | ⟨more, hinside, hmore⟩
    · rw [escapesNext_append hcode.escapesNext_eq]
      exact ih hmore
    · cases more with
      | nil =>
        -- The quote would be the first character of the codes that follow.
        exact absurd (@ih [] hmore.symm) Bool.false_ne_true
      | cons first more =>
        obtain ⟨rfl, -⟩ := List.cons.inj hmore
        exact hcode.escapesNext_before hquote hinside

/-- No control character stands among the codes of a text. -/
theorem not_isControl_of_mem_codes {quote : Char} (hquote : quote ∈ quotes) {text : List Char} :
    ∀ c ∈ text.flatMap (escape quote), ¬IsControl c := by
  intro c hc
  obtain ⟨d, -, hcode⟩ := List.mem_flatMap.mp hc
  exact (code_escape quote d).not_isControl hquote c hcode

end Quoted

end Text

namespace Value

open Text.Quoted

/-- A text that is shown stands between two quotes. No other text is shown alike. What stands
between the quotes has no control characters, the quote is escaped wherever it stands there, and
nothing is pending where it ends, so that the last quote is not escaped. -/
theorem shown_text_unambiguous (s : String) :
    (∀ t : String, (text t : Operand).shown = (text s : Operand).shown ↔ t = s) ∧
      ∃ quote ∈ quotes, ∃ body : List Char,
        (text s : Operand).shown.toList = quote :: (body ++ [quote]) ∧
        (∀ before after, body = before ++ quote :: after → escapesNext before = true) ∧
        escapesNext body = false ∧
        ∀ c ∈ (text s : Operand).shown.toList, ¬IsControl c := by
  have hquote := quoteFor_mem s.toList
  have hshown : ∀ t : String, (text t : Operand).shown = String.ofList (quoted t.toList) :=
    fun _ => rfl
  refine ⟨fun t => ?_, quoteFor s.toList, hquote, s.toList.flatMap (escape (quoteFor s.toList)),
    ?_, fun before after => escapesNext_of_codes hquote, escapesNext_codes _ _, ?_⟩
  · rw [hshown, hshown, String.ofList_inj, quoted_inj, String.toList_inj]
  · rw [hshown, String.toList_ofList]
    rfl
  · have hplain := not_isControl_of_mem_quotes hquote
    rw [hshown, String.toList_ofList]
    refine List.forall_mem_cons.mpr ⟨hplain, fun c hc => ?_⟩
    rcases List.mem_append.mp hc with hc | hc
    · exact not_isControl_of_mem_codes hquote c hc
    · exact List.mem_singleton.mp hc ▸ hplain

end Value

end Octets
