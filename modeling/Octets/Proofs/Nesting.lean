import Octets.Json.Tree
import Octets.Proofs.Spelling

/-!
# How JSON values are spelled

The tokens of a value are those of its parts, with marks around and between them (`Json.tokens`),
and its texts are those of its tokens, with any blanks (`Json.Spelled`). The grammar follows the
value, while the machine that reads it keeps a stack: after the tokens of a value it is where it
was, with the value complete (`run_tokens`), whatever is open around it and however deep.

* `run_tokens` — the machine on the tokens of a value;
* `apart_tokens` — no two numbers follow each other, so that no text of one runs into the next;
* `ofText?_of_spelled` — every text of a value is read as the value.
-/

namespace Octets.Json

/-! ## Grammar -/

mutual

/-- The tokens of a value. -/
def tokens : Json → List Token
  | .null => [.null]
  | .bool b => [.bool b]
  | .number n => [.number n]
  | .text s => [.text s]
  | .items [] => [.openBracket, .closeBracket]
  | .items (v :: rest) => .openBracket :: (tokens v ++ moreItems rest)
  | .fields [] => [.openBrace, .closeBrace]
  | .fields ((name, v) :: rest) =>
    .openBrace :: .text name :: .colon :: (tokens v ++ moreFields rest)

/-- The tokens of the items behind one, up to the end of the array. -/
def moreItems : List Json → List Token
  | [] => [.closeBracket]
  | v :: rest => .comma :: (tokens v ++ moreItems rest)

/-- The tokens of the fields behind one, up to the end of the object. -/
def moreFields : List (Quoted × Json) → List Token
  | [] => [.closeBrace]
  | (name, v) :: rest => .comma :: .text name :: .colon :: (tokens v ++ moreFields rest)

end

/-- The texts of a value. -/
def Spelled (v : Json) (text : List Char) : Prop := Written v.tokens text

/-! ## The machine -/

/-- The tokens of a value do not begin with the end of an array. -/
theorem step_opened_tokens (v : Json) (stack : List Frame) (rest : List Token) :
    (v.tokens ++ rest).foldlM step (.opened stack) =
      (v.tokens ++ rest).foldlM step (.value (.items [] :: stack)) := by
  unfold tokens
  split <;> rfl

mutual

/-- After the tokens of a value, the value is complete, and the same containers are open. -/
theorem run_tokens (v : Json) (stack : List Frame) (rest : List Token) :
    (v.tokens ++ rest).foldlM step (.value stack) = rest.foldlM step (.complete v stack) := by
  match v with
  | .null => rfl
  | .bool b => rfl
  | .number n => rfl
  | .text s => rfl
  | .items [] => rfl
  | .items (v :: more) =>
    have hopened : (tokens (.items (v :: more)) ++ rest).foldlM step (.value stack) =
        (v.tokens ++ (moreItems more ++ rest)).foldlM step (.opened stack) := by
      rw [tokens, List.cons_append, List.append_assoc]
      rfl
    rw [hopened, step_opened_tokens, run_tokens v, run_moreItems more]
    rfl
  | .fields [] => rfl
  | .fields ((name, v) :: more) =>
    have hnamed : (tokens (.fields ((name, v) :: more)) ++ rest).foldlM step (.value stack) =
        (v.tokens ++ (moreFields more ++ rest)).foldlM step
          (.value (.fields [] name :: stack)) := by
      rw [tokens, List.cons_append, List.cons_append, List.cons_append, List.append_assoc]
      rfl
    rw [hnamed, run_tokens v, run_moreFields more]
    rfl

/-- After the tokens of more items, the array is complete. -/
theorem run_moreItems (values : List Json) (v : Json) (before : List Json) (stack : List Frame)
    (rest : List Token) :
    (moreItems values ++ rest).foldlM step (.complete v (.items before :: stack)) =
      rest.foldlM step (.complete (.items ((v :: before).reverse ++ values)) stack) := by
  match values with
  | [] =>
    rw [List.append_nil]
    rfl
  | w :: more =>
    have hcomma : (moreItems (w :: more) ++ rest).foldlM step
        (.complete v (.items before :: stack)) =
        (w.tokens ++ (moreItems more ++ rest)).foldlM step
          (.value (.items (v :: before) :: stack)) := by
      rw [moreItems, List.cons_append, List.append_assoc]
      rfl
    rw [hcomma, run_tokens w, run_moreItems more, List.reverse_cons, List.append_assoc]
    rfl

/-- After the tokens of more fields, the object is complete. -/
theorem run_moreFields (entries : List (Quoted × Json)) (name : Quoted) (v : Json)
    (before : List (Quoted × Json)) (stack : List Frame) (rest : List Token) :
    (moreFields entries ++ rest).foldlM step (.complete v (.fields before name :: stack)) =
      rest.foldlM step (.complete (.fields (((name, v) :: before).reverse ++ entries)) stack) := by
  match entries with
  | [] =>
    rw [List.append_nil]
    rfl
  | (other, w) :: more =>
    have hcomma : (moreFields ((other, w) :: more) ++ rest).foldlM step
        (.complete v (.fields before name :: stack)) =
        (w.tokens ++ (moreFields more ++ rest)).foldlM step
          (.value (.fields ((name, v) :: before) other :: stack)) := by
      rw [moreFields, List.cons_append, List.cons_append, List.cons_append, List.append_assoc]
      rfl
    rw [hcomma, run_tokens w, run_moreFields more, List.reverse_cons, List.append_assoc]
    rfl

end

/-- The tokens of a value are read as the value. -/
theorem ofTokens?_tokens (v : Json) : ofTokens? v.tokens = some v := by
  have hrun := run_tokens v [] []
  rw [List.append_nil] at hrun
  rw [ofTokens?, hrun]
  rfl

/-! ## Numbers in a row -/

/-- No two numbers follow each other. -/
abbrev Apart (tokens : List Token) : Prop :=
  tokens.IsChain fun a b => a.isNumber = true → b.isNumber = false

/-- A number may stand before these tokens. -/
def Separates (tokens : List Token) : Prop :=
  Apart tokens ∧ ∀ t ∈ tokens.head?, t.isNumber = false

variable {token : Token} {tokens : List Token}

/-- A token that is not a number may stand before any. -/
theorem Apart.cons (h : Apart tokens) (htoken : token.isNumber = false) :
    Apart (token :: tokens) :=
  List.isChain_cons.mpr
    ⟨fun _ _ hnumber => absurd (htoken.symm.trans hnumber) Bool.false_ne_true, h⟩

/-- A token that is not a number may stand after one. -/
theorem Apart.separates (h : Apart tokens) (htoken : token.isNumber = false) :
    Separates (token :: tokens) := by
  refine ⟨h.cons htoken, fun t ht => ?_⟩
  obtain rfl := Option.mem_some.mp ht
  exact htoken

mutual

/-- No two numbers follow each other in the tokens of a value, or at their end. -/
theorem apart_tokens (v : Json) {rest : List Token} (h : Separates rest) :
    Apart (v.tokens ++ rest) := by
  match v with
  | .null => exact h.1.cons rfl
  | .bool b => exact h.1.cons rfl
  | .number n => exact List.isChain_cons.mpr ⟨fun t ht _ => h.2 t ht, h.1⟩
  | .text s => exact h.1.cons rfl
  | .items [] => exact (h.1.cons rfl).cons rfl
  | .items (v :: more) =>
    rw [Json.tokens, List.cons_append, List.append_assoc]
    exact (apart_tokens v (separates_moreItems more h.1)).cons rfl
  | .fields [] => exact (h.1.cons rfl).cons rfl
  | .fields ((name, v) :: more) =>
    rw [Json.tokens, List.cons_append, List.cons_append, List.cons_append, List.append_assoc]
    have hvalue := apart_tokens v (separates_moreFields more h.1)
    exact ((hvalue.cons rfl).cons rfl).cons rfl

theorem separates_moreItems (values : List Json) {rest : List Token} (h : Apart rest) :
    Separates (moreItems values ++ rest) := by
  match values with
  | [] => exact h.separates rfl
  | w :: more =>
    rw [moreItems, List.cons_append, List.append_assoc]
    exact (apart_tokens w (separates_moreItems more h)).separates rfl

theorem separates_moreFields (entries : List (Quoted × Json)) {rest : List Token}
    (h : Apart rest) :
    Separates (moreFields entries ++ rest) := by
  match entries with
  | [] => exact h.separates rfl
  | (name, w) :: more =>
    rw [moreFields, List.cons_append, List.cons_append, List.cons_append, List.append_assoc]
    have hvalue := apart_tokens w (separates_moreFields more h)
    exact ((hvalue.cons rfl).cons rfl).separates rfl

end

/-- Every text of a value is read as the value. -/
theorem ofText?_of_spelled {v : Json} {text : List Char} (h : v.Spelled text) :
    ofText? text = some v := by
  have hapart : Apart (v.tokens ++ []) := apart_tokens v ⟨.nil, nofun⟩
  rw [List.append_nil] at hapart
  rw [ofText?, tokens?_of_written h hapart]
  exact ofTokens?_tokens v

end Octets.Json
