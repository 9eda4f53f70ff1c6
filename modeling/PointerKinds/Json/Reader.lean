/-
Reading JSON.

The words of a text are read one by one, with the arrays and objects that are still open
on a stack.  What may come next depends on where the reader stands.

There are two readings of a text.  The full reading asks that every part has a value, and
that no more than 127 arrays and objects are open at once.  The shallow reading asks only
that the text is well-formed, and leaves it to the reader of the value to refuse the parts
that are used and have no value.
-/
import PointerKinds.Json.Lexer

namespace PointerKinds

namespace Json

namespace Reader

/-- An array or object that is still open, with its complete parts, the last one first. -/
inductive Frame where
  | array (items : List Json)
  | object (fields : List (Option String × Json))
  /-- An object whose next value belongs to a name. -/
  | field (fields : List (Option String × Json)) (name : Option String)

/-- Where a reader stands. -/
inductive Stage where
  /-- Before a value. -/
  | value
  /-- After an opening bracket. -/
  | firstItem
  /-- After an opening brace. -/
  | firstField
  /-- Before a field's name. -/
  | name
  /-- Before a field's colon. -/
  | colon
  /-- After a complete value. -/
  | complete (value : Json)

/-- Where a reader stands, and what is open around it. -/
structure State where
  stage : Stage
  stack : List Frame

/-- A complete array. -/
def closeArray (items : List Json) : Json := .array items.reverse

/-- A complete object, unless one of its names has no value. -/
def closeObject (fields : List (Option String × Json)) : Json :=
  match fields.reverse.mapM fun f => f.1.map fun name => (name, f.2) with
  | some fields => .object fields
  | none => .unreadable

/-- Reads a word where a value must follow. -/
def value? (stack : List Frame) : Token → Option State
  | .leaf j => some ⟨.complete j, stack⟩
  | .string (some s) => some ⟨.complete (.string s), stack⟩
  | .string none => some ⟨.complete .unreadable, stack⟩
  | .leftBracket => some ⟨.firstItem, .array [] :: stack⟩
  | .leftBrace => some ⟨.firstField, .object [] :: stack⟩
  | _ => none

/-- Reads a word where a field's name must follow. -/
def name? : List Frame → Token → Option State
  | .object fields :: stack, .string name => some ⟨.colon, .field fields name :: stack⟩
  | _, _ => none

/-- Reads a word after a complete value. -/
def next? (j : Json) : List Frame → Token → Option State
  | .array items :: stack, .comma => some ⟨.value, .array (j :: items) :: stack⟩
  | .array items :: stack, .rightBracket => some ⟨.complete (closeArray (j :: items)), stack⟩
  | .field fields name :: stack, .comma => some ⟨.name, .object ((name, j) :: fields) :: stack⟩
  | .field fields name :: stack, .rightBrace =>
    some ⟨.complete (closeObject ((name, j) :: fields)), stack⟩
  | _, _ => none

/-- Reads one word. -/
def step? (state : State) (t : Token) : Option State :=
  match state.stage with
  | .value => value? state.stack t
  | .firstItem =>
    match t, state.stack with
    | .rightBracket, _ :: stack => some ⟨.complete (.array []), stack⟩
    | _, stack => value? stack t
  | .firstField =>
    match t, state.stack with
    | .rightBrace, _ :: stack => some ⟨.complete (.object []), stack⟩
    | _, stack => name? stack t
  | .name => name? state.stack t
  | .colon =>
    match t with
    | .colon => some ⟨.value, state.stack⟩
    | _ => none
  | .complete j => next? j state.stack t

/-- The value that a reader has read, if it is complete. -/
def result? (state : State) : Option Json :=
  match state.stage, state.stack with
  | .complete j, [] => some j
  | _, _ => none

/-- Reads words one by one. -/
def run? (state : State) : List Token → Option State
  | [] => some state
  | t :: ts => (step? state t).bind fun state => run? state ts

end Reader

/-- The value of a text that is well-formed, but may have unreadable parts. -/
def readShallow? (text : String) : Option Json :=
  (lex? text).bind fun ts => (Reader.run? ⟨.value, []⟩ ts).bind Reader.result?

/-- How many arrays and objects may be open at once. -/
def maxDepth : Nat := 127

/-- The value of a text. -/
def read? (text : String) : Option Json := (readShallow? text).filter (·.isReadable maxDepth)

end Json

end PointerKinds
