import Octets.Json.Token

/-!
# JSON values

The second stage of reading JSON text: a machine takes in the tokens one by one. It keeps the
containers that are still open, innermost first, and knows what may come next; there is no limit
on how deep they are nested. Fields are kept in their order, repeated ones too.
-/

namespace Octets

/-- A JSON value. -/
inductive Json where
  | null
  | bool (b : Bool)
  | number (n : Json.Numeral)
  | text (s : Json.Quoted)
  | items (values : List Json)
  | fields (entries : List (Json.Quoted × Json))

namespace Json

/-- An open container: what it holds so far, the last first, and the name of the field whose
value is being read. -/
inductive Frame where
  | items (before : List Json)
  | fields (before : List (Quoted × Json)) (name : Quoted)

/-- What has been read, and what may come next. -/
inductive State where
  /-- A value comes next. -/
  | value (stack : List Frame)
  /-- An array has just been opened: a value or its end comes next. -/
  | opened (stack : List Frame)
  /-- An object has just been opened: a name or its end comes next. -/
  | openedFields (stack : List Frame)
  /-- After a comma in an object, a name comes next. -/
  | name (before : List (Quoted × Json)) (stack : List Frame)
  /-- After a name, a colon comes next. -/
  | colon (before : List (Quoted × Json)) (name : Quoted) (stack : List Frame)
  /-- A value is complete: a comma or the end of its container comes next. -/
  | complete (v : Json) (stack : List Frame)

/-- The first token of a value. -/
def startValue (stack : List Frame) : Token → Option State
  | .null => some (.complete .null stack)
  | .bool b => some (.complete (.bool b) stack)
  | .number n => some (.complete (.number n) stack)
  | .text s => some (.complete (.text s) stack)
  | .openBracket => some (.opened stack)
  | .openBrace => some (.openedFields stack)
  | _ => none

/-- One token further. -/
def step : State → Token → Option State
  | .value stack, token => startValue stack token
  | .opened stack, .closeBracket => some (.complete (.items []) stack)
  | .opened stack, token => startValue (.items [] :: stack) token
  | .openedFields stack, .closeBrace => some (.complete (.fields []) stack)
  | .openedFields stack, .text s => some (.colon [] s stack)
  | .name before stack, .text s => some (.colon before s stack)
  | .colon before name stack, .colon => some (.value (.fields before name :: stack))
  | .complete v (.items before :: stack), .comma => some (.value (.items (v :: before) :: stack))
  | .complete v (.items before :: stack), .closeBracket =>
    some (.complete (.items (v :: before).reverse) stack)
  | .complete v (.fields before name :: stack), .comma =>
    some (.name ((name, v) :: before) stack)
  | .complete v (.fields before name :: stack), .closeBrace =>
    some (.complete (.fields ((name, v) :: before).reverse) stack)
  | _, _ => none

/-- The value that a sequence of tokens spells. -/
def ofTokens? (tokens : List Token) : Option Json :=
  match tokens.foldlM step (.value []) with
  | some (.complete v []) => some v
  | _ => none

/-- The value of a JSON text. -/
def ofText? (text : List Char) : Option Json := (tokens? text).bind ofTokens?

end Json

end Octets
