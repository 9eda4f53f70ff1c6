/-
Writing JSON.

A text is compact, or laid out with one item or field to a line and two blanks for each
level.  Empty arrays and objects stay on their line in both.  In strings, quotes,
backslashes and control characters are escaped, and nothing else.  What could not be read
is written as null.
-/
import PointerKinds.Json.Value

namespace PointerKinds

namespace Json

/-! ### Strings -/

/-- A hexadecimal digit in lower case. -/
def hexDigit (n : Nat) : Char :=
  if n < 10 then Char.ofNat ('0'.toNat + n) else Char.ofNat ('a'.toNat + (n - 10))

/-- The last digits of a number in hexadecimal, with leading zeros. -/
def hex (n : Nat) : (width : Nat) → List Char
  | 0 => []
  | width + 1 => hexDigit ((n >>> (4 * width)) % 16) :: hex n width

/-- The written form of one character of a string. -/
def escape (c : Char) : List Char :=
  if c = '"' then ['\\', '"']
  else if c = '\\' then ['\\', '\\']
  else if c.toNat = 8 then ['\\', 'b']
  else if c.toNat = 12 then ['\\', 'f']
  else if c = '\n' then ['\\', 'n']
  else if c = '\r' then ['\\', 'r']
  else if c = '\t' then ['\\', 't']
  else if c.toNat < 32 then '\\' :: 'u' :: hex c.toNat 4
  else [c]

/-- A string in quotes. -/
def quote (s : String) : String := String.ofList ('"' :: s.toList.flatMap escape ++ ['"'])

/-! ### Values -/

/-- How the parts of a value are set apart. -/
structure Layout where
  /-- What separates a field's name from its value. -/
  colon : String
  /-- What starts a new line at a depth. -/
  newline : Nat → String

/-- No blanks at all. -/
def compactLayout : Layout := ⟨":", fun _ => ""⟩

/-- One part to a line, two blanks for each level. -/
def prettyLayout : Layout := ⟨": ", fun depth => String.ofList ('\n' :: List.replicate (2 * depth) ' ')⟩

mutual

/-- The text of a value that stands at a depth. -/
def write (layout : Layout) (depth : Nat) : Json → String
  | null => "null"
  | bool true => "true"
  | bool false => "false"
  | int i => toString i
  | real spelling => spelling
  | string s => quote s
  | unreadable => "null"
  | array [] => "[]"
  | array (j :: js) =>
    "[" ++ layout.newline (depth + 1) ++ j.write layout (depth + 1) ++
      writeItems layout (depth + 1) js ++ layout.newline depth ++ "]"
  | object [] => "\x7b\x7d"
  | object ((k, v) :: fs) =>
    "\x7b" ++ layout.newline (depth + 1) ++ quote k ++ layout.colon ++ v.write layout (depth + 1) ++
      writeFields layout (depth + 1) fs ++ layout.newline depth ++ "\x7d"

/-- The texts of further items. -/
def writeItems (layout : Layout) (depth : Nat) : List Json → String
  | [] => ""
  | j :: js => "," ++ layout.newline depth ++ j.write layout depth ++ writeItems layout depth js

/-- The texts of further fields. -/
def writeFields (layout : Layout) (depth : Nat) : List (String × Json) → String
  | [] => ""
  | (k, v) :: fs =>
    "," ++ layout.newline depth ++ quote k ++ layout.colon ++ v.write layout depth ++
      writeFields layout depth fs

end

/-- The text of a value on one line. -/
def compact (j : Json) : String := j.write compactLayout 0

/-- The text of a value, laid out. -/
def pretty (j : Json) : String := j.write prettyLayout 0

end Json

end PointerKinds
