/-
The words of a JSON text.

A text is cut into brackets, separators, strings and other values without parts.  Blanks,
tabs and line ends may stand between them.  A string may hold any character but a control
character.  An escape by number gives a code unit of 16 bits; two units that are
surrogates make one character, and a string with any other surrogate has no value, though
it is well-formed.

Every word takes at least one character, so the number of characters bounds the work.
-/
import PointerKinds.Json.Number

namespace PointerKinds

namespace Json

/-- A word of a JSON text. -/
inductive Token where
  | leftBracket
  | rightBracket
  | leftBrace
  | rightBrace
  | colon
  | comma
  /-- A string, with its value if it has one. -/
  | string (value : Option String)
  /-- Any other value without parts. -/
  | leaf (value : Json)

namespace Lexer

/-! ### Strings -/

/-- The value of a hexadecimal digit. -/
def hexValue? (c : Char) : Option Nat :=
  if '0' ≤ c ∧ c ≤ '9' then some (c.toNat - '0'.toNat)
  else if 'a' ≤ c ∧ c ≤ 'f' then some (c.toNat - 'a'.toNat + 10)
  else if 'A' ≤ c ∧ c ≤ 'F' then some (c.toNat - 'A'.toNat + 10)
  else none

/-- The value of four hexadecimal digits. -/
def hex4? (a b c d : Char) : Option Nat := do
  let a ← hexValue? a
  let b ← hexValue? b
  let c ← hexValue? c
  let d ← hexValue? d
  return ((a * 16 + b) * 16 + c) * 16 + d

/-- Whether a code unit is the first of a surrogate pair. -/
def isHighSurrogate (n : Nat) : Bool := 0xD800 ≤ n && n < 0xDC00

/-- Whether a code unit is the second of a surrogate pair. -/
def isLowSurrogate (n : Nat) : Bool := 0xDC00 ≤ n && n < 0xE000

/-- The character of a surrogate pair. -/
def ofSurrogates (high low : Nat) : Char :=
  Char.ofNat (0x10000 + (high - 0xD800) * 0x400 + (low - 0xDC00))

/-- The character that a letter stands for after a backslash. -/
def unescape? (c : Char) : Option Char :=
  match c with
  | '"' => some '"'
  | '\\' => some '\\'
  | '/' => some '/'
  | 'b' => some (Char.ofNat 8)
  | 'f' => some (Char.ofNat 12)
  | 'n' => some '\n'
  | 'r' => some '\r'
  | 't' => some '\t'
  | _ => none

/-- Reads a string after its opening quote: its characters and code units by number, and
what follows the closing quote.  Only an escape can give the number of a surrogate. -/
def stringBody? : List Char → Option (List Nat × List Char)
  | [] => none
  | '"' :: rest => some ([], rest)
  | '\\' :: 'u' :: a :: b :: c :: d :: rest =>
    match hex4? a b c d with
    | none => none
    | some n => (stringBody? rest).map fun (s, rest) => (n :: s, rest)
  | '\\' :: c :: rest =>
    match unescape? c with
    | none => none
    | some c => (stringBody? rest).map fun (s, rest) => (c.toNat :: s, rest)
  | c :: rest =>
    if c.toNat < 32 || c = '\\' then none
    else (stringBody? rest).map fun (s, rest) => (c.toNat :: s, rest)

/-- The characters of a string, if each surrogate is one of a pair. -/
def characters? : List Nat → Option (List Char)
  | [] => some []
  | m :: rest =>
    if isLowSurrogate m then none
    else if isHighSurrogate m then
      match rest with
      | [] => none
      | n :: rest =>
        if isLowSurrogate n then (characters? rest).map (ofSurrogates m n :: ·) else none
    else (characters? rest).map (Char.ofNat m :: ·)

/-- The value of a string. -/
def stringValue? (numbers : List Nat) : Option String := (characters? numbers).map String.ofList

/-! ### Words -/

/-- Whether a character may stand between words. -/
def isBlank (c : Char) : Bool := c = ' ' || c = '\t' || c = '\n' || c = '\r'

/-- What is left after the given characters. -/
def after? (word : List Char) (cs : List Char) : Option (List Char) :=
  if word.isPrefixOf cs then some (cs.drop word.length) else none

/-- A bracket or separator. -/
def mark? (c : Char) : Option Token :=
  match c with
  | '[' => some .leftBracket
  | ']' => some .rightBracket
  | '\x7b' => some .leftBrace
  | '\x7d' => some .rightBrace
  | ':' => some .colon
  | ',' => some .comma
  | _ => none

/-- The first word of a text that starts with one, and the rest. -/
def token? (c : Char) (cs : List Char) : Option (Token × List Char) :=
  match mark? c with
  | some t => some (t, cs)
  | none =>
    if c = '"' then (stringBody? cs).map fun (s, rest) => (.string (stringValue? s), rest)
    else if c = 'n' then (after? ['u', 'l', 'l'] cs).map (.leaf .null, ·)
    else if c = 't' then (after? ['r', 'u', 'e'] cs).map (.leaf (.bool true), ·)
    else if c = 'f' then (after? ['a', 'l', 's', 'e'] cs).map (.leaf (.bool false), ·)
    else if Number.isNumberChar c then
      (number? (c :: cs.takeWhile Number.isNumberChar)).map fun j =>
        (.leaf j, cs.dropWhile Number.isNumberChar)
    else none

/-- The words of a text. -/
def tokens? : Nat → List Char → Option (List Token)
  | _, [] => some []
  | 0, _ => none
  | fuel + 1, c :: cs =>
    if isBlank c then tokens? fuel cs
    else (token? c cs).bind fun (t, rest) => (tokens? fuel rest).map (t :: ·)

end Lexer

/-- The words of a text. -/
def lex? (text : String) : Option (List Token) := Lexer.tokens? text.length text.toList

end Json

end PointerKinds
