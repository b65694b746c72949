import Mathlib.Data.List.Chain
import Octets.Json.Token
import Octets.Proofs.Hexadecimal

/-!
# How JSON tokens are spelled

The texts of the tokens, by the grammar of JSON: what may stand before and after a point, which
characters stand for themselves between quotes, and which blanks may stand between tokens. The
grammar says nothing on how a text is read; that the reader finds the tokens of every text that it
allows is `tokens?_of_written`.

A number has no end of its own. It is cut where no digit, point or exponent follows (`Ends`), which
is the case wherever no other number follows, since no other token begins with one of these
(`Token.Spelled.ends`).

* `scanNumber_of_spelled`, `scanQuoted_of_spelled` — the scanners on what they are for;
* `first?_of_spelled` — one token;
* `tokens?_of_written` — all tokens of a text.
-/

namespace Octets.Json

/-! ## Grammar -/

/-- At least one digit, and nothing else. -/
def Digits (text : List Char) : Prop := text ≠ [] ∧ ∀ c ∈ text, c.isDigit = true

/-- The digits of a whole number: no zero stands before other digits. -/
def Whole (text : List Char) : Prop := Digits text ∧ (text.head? = some '0' → text = ['0'])

instance (text : List Char) : Decidable (Digits text) :=
  decidable_of_iff (text ≠ [] ∧ text.all Char.isDigit = true) (by rw [Digits, List.all_eq_true])

instance (text : List Char) : Decidable (Whole text) :=
  inferInstanceAs (Decidable (Digits text ∧ (text.head? = some '0' → text = ['0'])))

/-- The digits of a fraction, and their text with the point. -/
inductive Fraction : List Char → List Char → Prop where
  | none : Fraction [] []
  | point (digits : List Char) (h : Digits digits) : Fraction digits ('.' :: digits)

/-- The sign and the digits of an exponent, and their text with the letter. -/
inductive Exponent : Option (Bool × List Char) → List Char → Prop where
  | none : Exponent none []
  | power (letter : Char) (negative : Bool) (sign digits : List Char)
    (hletter : letter ∈ ['e', 'E'])
    (hsign : (negative, sign) ∈ [(false, []), (false, ['+']), (true, ['-'])])
    (h : Digits digits) : Exponent (some (negative, digits)) (letter :: (sign ++ digits))

/-- The texts of a number. -/
inductive Numeral.Spelled : Numeral → List Char → Prop where
  | mk (negative : Bool) (whole : List Char) {fraction point power : List Char}
    {exponent : Option (Bool × List Char)} (hwhole : Whole whole)
    (hfraction : Fraction fraction point) (hexponent : Exponent exponent power) :
    Spelled ⟨negative, whole, fraction, exponent⟩
      ((if negative then ['-'] else []) ++ (whole ++ (point ++ power)))

/-- The letters behind a backslash, and the characters that they stand for. -/
def escapes : List (Char × Char) :=
  [('"', '"'), ('\\', '\\'), ('/', '/'), ('b', '\x08'), ('f', '\x0c'), ('n', '\n'), ('r', '\r'),
    ('t', '\t')]

/-- The value of a hexadecimal digit, which is its place among them. -/
def place (c : Char) : Nat := Text.hexDigits.idxOf c.toLower

/-- The character stands for itself between quotes. -/
def Plain (c : Char) : Prop := 0x20 ≤ c.toNat ∧ c ≠ '"' ∧ c ≠ '\\'

instance (c : Char) : Decidable (Plain c) :=
  inferInstanceAs (Decidable (0x20 ≤ c.toNat ∧ c ≠ '"' ∧ c ≠ '\\'))

/-- The texts of a part of a quoted text. -/
inductive Piece.Spelled : Piece → List Char → Prop where
  | plain {c : Char} (h : Plain c) : Spelled (.char c) [c]
  | letter {e c : Char} (h : (e, c) ∈ escapes) : Spelled (.char c) ['\\', e]
  /-- A unit by its number, in four hexadecimal digits. -/
  | unit (a b c d : Char) (h : ∀ x ∈ [a, b, c, d], x.toLower ∈ Text.hexDigits) :
    Spelled (.unit (UInt16.ofNat (((place a * 16 + place b) * 16 + place c) * 16 + place d)))
      ['\\', 'u', a, b, c, d]

/-- The texts of a token. -/
inductive Token.Spelled : Token → List Char → Prop where
  | openBrace : Spelled .openBrace ['\x7b']
  | closeBrace : Spelled .closeBrace ['\x7d']
  | openBracket : Spelled .openBracket ['[']
  | closeBracket : Spelled .closeBracket [']']
  | colon : Spelled .colon [':']
  | comma : Spelled .comma [',']
  | null : Spelled .null ['n', 'u', 'l', 'l']
  | isTrue : Spelled (.bool true) ['t', 'r', 'u', 'e']
  | isFalse : Spelled (.bool false) ['f', 'a', 'l', 's', 'e']
  | number {n : Numeral} {text : List Char} (h : n.Spelled text) : Spelled (.number n) text
  | text {pieces : List Piece} {parts : List (List Char)}
    (h : List.Forall₂ Piece.Spelled pieces parts) :
    Spelled (.text (joinPieces pieces)) ('"' :: (parts.flatten ++ ['"']))

/-- Blanks, and nothing else. -/
def Blanks (text : List Char) : Prop := ∀ c ∈ text, c ∈ [' ', '\n', '\t', '\r']

instance (text : List Char) : Decidable (Blanks text) :=
  decidable_of_iff (text.all (· ∈ [' ', '\n', '\t', '\r']) = true) (by simp [Blanks])

/-- The texts of a sequence of tokens, with blanks before, between and after them. -/
inductive Written : List Token → List Char → Prop where
  | nil (blanks : List Char) (h : Blanks blanks) : Written [] blanks
  | cons (blanks : List Char) {text more : List Char} {token : Token} {tokens : List Token}
    (h : Blanks blanks) (htoken : token.Spelled text) (hmore : Written tokens more) :
    Written (token :: tokens) (blanks ++ (text ++ more))

/-! ## Digits -/

/-- No digit stands at the beginning. -/
def Stops (text : List Char) : Prop := ∀ c ∈ text.head?, c.isDigit = false

/-- Digits are taken up to what begins with none. -/
theorem span_digits {digits rest : List Char} (h : ∀ c ∈ digits, c.isDigit = true)
    (hrest : Stops rest) : (digits ++ rest).takeWhile Char.isDigit = digits ∧
      (digits ++ rest).dropWhile Char.isDigit = rest := by
  rw [List.takeWhile_append_of_pos h, List.dropWhile_append_of_pos h]
  cases rest with
  | nil => exact ⟨List.append_nil digits, rfl⟩
  | cons c rest =>
    have hc : c.isDigit = false := hrest c rfl
    simp [hc]

theorem Digits.exists_cons {text : List Char} (h : Digits text) :
    ∃ c more, text = c :: more ∧ c.isDigit = true := by
  obtain ⟨c, more, rfl⟩ := List.exists_cons_of_ne_nil h.1
  exact ⟨c, more, rfl, h.2 c List.mem_cons_self⟩

theorem Digits.isEmpty {text : List Char} (h : Digits text) : text.isEmpty = false := by
  cases text with
  | nil => exact absurd rfl h.1
  | cons c rest => rfl

/-! ## Numbers -/

/-- A number that stands before this is complete. -/
def Ends (text : List Char) : Prop :=
  ∀ c ∈ text.head?, c.isDigit = false ∧ c ∉ ['.', 'e', 'E']

theorem Ends.stops {text : List Char} (h : Ends text) : Stops text := fun c hc => (h c hc).1

/-- No digit is a character that is none. -/
theorem ne_of_isDigit {c d : Char} (hc : c.isDigit = true) (hd : d.isDigit = false) : c ≠ d := by
  rintro rfl
  exact Bool.false_ne_true (hd.symm.trans hc)

theorem scanPower_of_spelled {negative : Bool} {sign digits rest : List Char}
    (hsign : (negative, sign) ∈ [(false, []), (false, ['+']), (true, ['-'])]) (h : Digits digits)
    (hrest : Stops rest) :
    scanPower (sign ++ digits ++ rest) = some ((negative, digits), rest) := by
  obtain ⟨htake, hdrop⟩ := span_digits h.2 hrest
  simp only [List.mem_cons, Prod.mk.injEq, List.not_mem_nil, or_false] at hsign
  obtain ⟨rfl, rfl⟩ | ⟨rfl, rfl⟩ | ⟨rfl, rfl⟩ := hsign
  · -- Without a sign the text begins with a digit.
    obtain ⟨c, more, rfl, hc⟩ := h.exists_cons
    have hminus : c ≠ '-' := ne_of_isDigit hc rfl
    have hplus : c ≠ '+' := ne_of_isDigit hc rfl
    rw [List.cons_append] at htake hdrop
    simp [scanPower, hminus, hplus, htake, hdrop]
  · simp [scanPower, htake, hdrop, h.1]
  · simp [scanPower, htake, hdrop, h.1]

theorem scanExponent_of_spelled {exponent : Option (Bool × List Char)} {power rest : List Char}
    (h : Exponent exponent power) (hrest : Ends rest) :
    scanExponent (power ++ rest) = some (exponent, rest) := by
  cases h with
  | none =>
    cases rest with
    | nil => rfl
    | cons c rest =>
      obtain ⟨-, hc⟩ := hrest c rfl
      simp only [List.mem_cons, List.not_mem_nil, or_false, not_or] at hc
      simp [scanExponent, hc]
  | power letter negative sign digits hletter hsign h =>
    have hscan := scanPower_of_spelled hsign h hrest.stops
    simp only [List.mem_cons, List.not_mem_nil, or_false] at hletter
    obtain rfl | rfl := hletter
    · rw [List.cons_append, scanExponent, hscan]
      rfl
    · rw [List.cons_append, scanExponent, hscan]
      rfl

/-- Where an exponent or the end stands, no digit does and no point. -/
theorem Exponent.stops {exponent : Option (Bool × List Char)} {power rest : List Char}
    (h : Exponent exponent power) (hrest : Ends rest) :
    ∀ c ∈ (power ++ rest).head?, c.isDigit = false ∧ c ≠ '.' := by
  cases h with
  | none =>
    intro c hc
    obtain ⟨hdigit, hnone⟩ := hrest c hc
    exact ⟨hdigit, fun hpoint => hnone (hpoint ▸ List.mem_cons_self)⟩
  | power letter negative sign digits hletter =>
    intro c hc
    obtain rfl := Option.mem_some.mp hc
    simp only [List.mem_cons, List.not_mem_nil, or_false] at hletter
    obtain rfl | rfl := hletter <;> decide

theorem scanFraction_of_spelled {fraction point rest : List Char} (h : Fraction fraction point)
    (hrest : ∀ c ∈ rest.head?, c.isDigit = false ∧ c ≠ '.') :
    scanFraction (point ++ rest) = some (fraction, rest) := by
  cases h with
  | none =>
    cases rest with
    | nil => rfl
    | cons c rest => simp [scanFraction, (hrest c rfl).2]
  | point digits h =>
    obtain ⟨htake, hdrop⟩ := span_digits h.2 fun c hc => (hrest c hc).1
    simp [scanFraction, htake, hdrop, h.1]

/-- Where a fraction, an exponent or the end stands, no digit does. -/
theorem Fraction.stops {fraction point rest : List Char} (h : Fraction fraction point)
    (hrest : ∀ c ∈ rest.head?, c.isDigit = false ∧ c ≠ '.') : Stops (point ++ rest) := by
  cases h with
  | none => exact fun c hc => (hrest c hc).1
  | point digits h =>
    intro c hc
    obtain rfl := Option.mem_some.mp hc
    rfl

/-- A number is read from its text, after the sign. -/
theorem scanNumber_of_spelled (negative : Bool) {whole fraction point power rest : List Char}
    {exponent : Option (Bool × List Char)} (hwhole : Whole whole)
    (hfraction : Fraction fraction point) (hexponent : Exponent exponent power)
    (hrest : Ends rest) :
    scanNumber negative (whole ++ (point ++ power) ++ rest) =
      some (⟨negative, whole, fraction, exponent⟩, rest) := by
  have hbehind := hexponent.stops hrest
  obtain ⟨htake, hdrop⟩ := span_digits hwhole.1.2 (hfraction.stops hbehind)
  have hzero : (whole.head? == some '0' && decide (1 < whole.length)) = false := by
    rw [Bool.and_eq_false_iff, beq_eq_false_iff_ne, decide_eq_false_iff_not, ← imp_iff_not_or]
    intro hhead
    rw [hwhole.2 hhead]
    decide
  simp only [scanNumber, List.append_assoc, htake, hdrop, hwhole.1.isEmpty, hzero, Bool.or_false,
    Bool.false_eq_true, if_false, scanFraction_of_spelled hfraction hbehind, Option.bind_eq_bind,
    Option.bind_some, scanExponent_of_spelled hexponent hrest, Option.pure_def]

/-! ## Quoted texts -/

theorem digitValue?_place {c : Char} (h : c.toLower ∈ Text.hexDigits) :
    Text.digitValue? c.toNat = some (place c) :=
  Text.digitValue?_eq_some_iff.mpr ⟨h, rfl⟩

theorem unit?_of_mem {a b c d : Char} (h : ∀ x ∈ [a, b, c, d], x.toLower ∈ Text.hexDigits) :
    unit? a b c d =
      some (UInt16.ofNat (((place a * 16 + place b) * 16 + place c) * 16 + place d)) := by
  simp only [List.forall_mem_cons] at h
  obtain ⟨ha, hb, hc, hd, -⟩ := h
  simp [unit?, digitValue?_place, ha, hb, hc, hd]

/-- A part of a quoted text is read, and then what follows it. -/
theorem scanQuoted_append {piece : Piece} {text : List Char} (h : piece.Spelled text)
    (rest : List Char) :
    scanQuoted (text ++ rest) = (scanQuoted rest).map fun (pieces, rest) =>
      (piece :: pieces, rest) := by
  cases h with
  | @plain c h =>
    obtain ⟨hvisible, hquote, hslash⟩ := h
    have hlow : ¬c.toNat < 0x20 := Nat.not_lt.mpr hvisible
    rw [List.singleton_append, scanQuoted]
    · simp only [hlow, beq_eq_false_iff_ne.mpr hslash]
      cases scanQuoted rest <;> rfl
    · exact hquote
    · exact fun _ _ _ _ _ h _ => hslash h
    · exact fun _ _ h _ => hslash h
  | @letter e c h =>
    have every : ∀ p ∈ escapes, escaped? p.1 = some p.2 ∧ p.1 ≠ 'u' := by decide
    obtain ⟨hchar, hunit⟩ := every (e, c) h
    rw [List.cons_append, List.singleton_append, scanQuoted, hchar]
    · cases scanQuoted rest <;> rfl
    · exact fun _ _ _ _ _ h _ => hunit h
  | unit a b c d h =>
    simp only [List.cons_append, List.nil_append, scanQuoted, unit?_of_mem h]
    cases scanQuoted rest <;> rfl

/-- A quoted text is read up to its closing quote. -/
theorem scanQuoted_of_spelled {pieces : List Piece} {parts : List (List Char)}
    (h : List.Forall₂ Piece.Spelled pieces parts) (rest : List Char) :
    scanQuoted (parts.flatten ++ '"' :: rest) = some (pieces, rest) := by
  induction h with
  | nil => rfl
  | cons hpiece _ ih => rw [List.flatten_cons, List.append_assoc, scanQuoted_append hpiece, ih]; rfl

/-- Characters that stand for themselves make a text between quotes. -/
theorem Token.spelled_plain (text : List Char) (h : text.all (decide <| Plain ·) = true) :
    Token.Spelled (.text (some text)) ('"' :: (text ++ ['"'])) := by
  have hpieces : List.Forall₂ Piece.Spelled (text.map .char) (text.map ([·])) := by
    rw [List.forall₂_map_left_iff, List.forall₂_map_right_iff, List.forall₂_same]
    exact fun c hc => .plain (of_decide_eq_true (List.all_eq_true.mp h c hc))
  have hjoin : joinPieces (text.map .char) = some text := by
    clear h hpieces
    induction text with
    | nil => rfl
    | cons c text ih => rw [List.map_cons, joinPieces, ih]; rfl
  have hparts : (text.map ([·])).flatten = text := by simp [← List.flatMap_def]
  have hspelled := Token.Spelled.text hpieces
  rwa [hjoin, hparts] at hspelled

/-! ## Tokens -/

/-- The token is a number. -/
def Token.isNumber : Token → Bool
  | .number _ => true
  | _ => false

/-- What begins with a digit is a number. -/
theorem first?_digit {c : Char} (rest : List Char) (h : c.isDigit = true) :
    first? (c :: rest) =
      (scanNumber false (c :: rest)).map fun (n, rest) => (.number n, rest) := by
  unfold first?
  split
  all_goals first
    | rfl
    | rename_i heq
      obtain ⟨rfl, -⟩ := List.cons.inj heq
      exact absurd h (by decide)

/-- A token is read from its text, if what follows does not continue a number. -/
theorem first?_of_spelled {token : Token} {text rest : List Char} (h : token.Spelled text)
    (hrest : token.isNumber = true → Ends rest) : first? (text ++ rest) = some (token, rest) := by
  cases h with
  | number h =>
    have hends := hrest rfl
    obtain @⟨negative, whole, fraction, point, power, exponent, hwhole, hfraction, hexponent⟩ := h
    have hscan := scanNumber_of_spelled negative hwhole hfraction hexponent hends
    cases negative with
    | true =>
      simp only [if_true, List.cons_append, List.nil_append, first?]
      rw [hscan]
      rfl
    | false =>
      obtain ⟨c, more, rfl, hc⟩ := hwhole.1.exists_cons
      simp only [Bool.false_eq_true, if_false, List.nil_append, List.cons_append] at hscan ⊢
      rw [first?_digit _ hc, hscan]
      rfl
  | text h =>
    simp only [List.cons_append, List.append_assoc, List.nil_append, first?]
    rw [scanQuoted_of_spelled h rest]
    rfl
  | _ => rfl

/-- A token begins with a character that is no blank. -/
theorem Token.Spelled.exists_cons {token : Token} {text : List Char} (h : token.Spelled text) :
    ∃ c more, text = c :: more ∧ isBlank c = false := by
  cases h with
  | number h =>
    obtain @⟨negative, whole, _, point, power, _, hwhole, _, _⟩ := h
    cases negative with
    | true => exact ⟨'-', _, rfl, rfl⟩
    | false =>
      obtain ⟨c, more, rfl, hc⟩ := hwhole.1.exists_cons
      refine ⟨c, _, rfl, ?_⟩
      simp [isBlank, ne_of_isDigit hc]
  | _ => exact ⟨_, _, rfl, rfl⟩

/-- A token that is not a number continues none. -/
theorem Token.Spelled.ends {token : Token} {text rest : List Char} (h : token.Spelled text)
    (hnumber : token.isNumber = false) : Ends (text ++ rest) := by
  cases h with
  | number => cases hnumber
  | _ =>
    intro c hc
    obtain rfl := Option.mem_some.mp hc
    decide

/-! ## Texts -/

variable {token : Token} {tokens : List Token} {text rest blanks : List Char}

/-- A token may stand before others without a blank. -/
theorem Written.append (h : token.Spelled text) (hmore : Written tokens rest) :
    Written (token :: tokens) (text ++ rest) :=
  .cons [] nofun h hmore

theorem isBlank_iff {c : Char} : isBlank c = true ↔ c ∈ [' ', '\n', '\t', '\r'] := by
  simp [isBlank, or_assoc]

/-- Blanks are passed over. -/
theorem tokens?_blanks (h : Blanks blanks) (rest : List Char) :
    tokens? (blanks ++ rest) = tokens? rest := by
  induction blanks with
  | nil => rfl
  | cons c blanks ih =>
    have hblank := isBlank_iff.mpr (h c List.mem_cons_self)
    rw [List.cons_append, tokens?, if_pos hblank, ih fun d hd => h d (List.mem_cons_of_mem c hd)]

/-- A token is taken from the front of a text. -/
theorem tokens?_append (h : token.Spelled text) (hrest : token.isNumber = true → Ends rest) :
    tokens? (text ++ rest) = (tokens? rest).map (token :: ·) := by
  have hfirst := first?_of_spelled h hrest
  obtain ⟨c, more, rfl, hblank⟩ := h.exists_cons
  have hshorter : rest.length < (c :: (more ++ rest)).length := by
    rw [List.length_cons, List.length_append]
    omega
  rw [List.cons_append] at hfirst ⊢
  rw [tokens?, hblank, if_neg Bool.false_ne_true, hfirst]
  exact if_pos hshorter

/-- Where tokens are written that do not begin with a number, no number is continued. -/
theorem Written.ends (h : Written tokens text)
    (hfirst : ∀ t ∈ tokens.head?, t.isNumber = false) : Ends text := by
  have hblank : ∀ c ∈ [' ', '\n', '\t', '\r'], c.isDigit = false ∧ c ∉ ['.', 'e', 'E'] := by
    intro c hc
    simp only [List.mem_cons, List.not_mem_nil, or_false] at hc
    obtain rfl | rfl | rfl | rfl := hc <;> decide
  cases h with
  | nil blanks h => exact fun c hc => hblank c (h c (List.mem_of_mem_head? hc))
  | @cons blanks text more token tokens h htoken hmore =>
    cases blanks with
    | nil => exact htoken.ends (hfirst token rfl)
    | cons c blanks =>
      intro d hd
      obtain rfl := Option.mem_some.mp hd
      exact hblank c (h c List.mem_cons_self)

/-- The tokens of a text are read from it, if no two numbers follow each other. -/
theorem tokens?_of_written (h : Written tokens text)
    (hapart : tokens.IsChain fun a b => a.isNumber = true → b.isNumber = false) :
    tokens? text = some tokens := by
  induction h with
  | nil blanks h =>
    have hnone := tokens?_blanks h []
    rw [List.append_nil] at hnone
    rw [hnone, tokens?]
  | cons blanks h htoken hmore ih =>
    obtain ⟨hnext, hapart⟩ := List.isChain_cons.mp hapart
    have hends := fun hnumber => hmore.ends fun t ht => hnext t ht hnumber
    rw [tokens?_blanks h, tokens?_append htoken hends, ih hapart]
    rfl

end Octets.Json
