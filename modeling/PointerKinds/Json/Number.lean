/-
The numbers of a JSON text.

A number has a sign, an integer part, and perhaps a fraction and an exponent.  An integer
of 64 bits has a value.  Any other number is meant for a 64-bit float: of its digits as
many are taken as fit into 64 bits, and times the power of ten that is left they must not
become infinite.  The digits, the power and their product are each rounded to the 53 bits
of a float, so the limit is that of float arithmetic and not of the exact value.  Numbers
that are too close to zero are no mistake.
-/
import PointerKinds.Json.Value
import PointerKinds.Text.Fixed

namespace PointerKinds

namespace Json

/-- The spelling of a number, taken apart. -/
structure Number where
  negative : Bool
  /-- The digits before the point. -/
  whole : List Char
  /-- The digits after the point, if there is one. -/
  fraction : Option (List Char)
  exponent : Option Int

namespace Number

/-! ### Spelling -/

/-- Whether a character can stand in a number. -/
def isNumberChar (c : Char) : Bool :=
  c.isDigit || c = '-' || c = '+' || c = '.' || c = 'e' || c = 'E'

/-- The value of a decimal digit. -/
def digitValue (d : Char) : Nat := d.toNat - '0'.toNat

/-- The value of decimal digits. -/
def digitsValue (ds : List Char) : Nat := ds.foldl (fun n d => n * 10 + digitValue d) 0

/-- Whether digits are the integer part of a number: no zero in front of others. -/
def isWhole (ds : List Char) : Bool :=
  match ds with
  | [] => false
  | ['0'] => true
  | d :: ds => d.isDigit && d != '0' && ds.all (·.isDigit)

/-- The value of an exponent after its letter. -/
def exponentValue? (cs : List Char) : Option Int :=
  let digits (ds : List Char) : Option Nat :=
    if ds != [] && ds.all (·.isDigit) then some (digitsValue ds) else none
  match cs with
  | '-' :: ds => (digits ds).map fun n => -(n : Int)
  | '+' :: ds => (digits ds).map fun n => (n : Int)
  | ds => (digits ds).map fun n => (n : Int)

/-- The exponent at the end of a number, where there may be none. -/
def exponent? (cs : List Char) : Option (Option Int) :=
  match cs with
  | [] => some none
  | c :: ds => if c = 'e' || c = 'E' then (exponentValue? ds).map some else none

/-- The digits after the point, if there is one, and what follows. -/
def splitFraction (cs : List Char) : Option (List Char) × List Char :=
  match cs with
  | '.' :: ds => (some (ds.takeWhile Char.isDigit), ds.dropWhile Char.isDigit)
  | _ => (none, cs)

/-- Takes a spelling apart.  Only the integer part must be there, and a point needs digits
after it. -/
def ofSpelling? (spelling : List Char) : Option Number :=
  let negative := spelling.head? = some '-'
  let body := if negative then spelling.drop 1 else spelling
  let whole := body.takeWhile Char.isDigit
  let (fraction, rest) := splitFraction (body.dropWhile Char.isDigit)
  if !isWhole whole || fraction = some [] then none
  else (exponent? rest).map fun exponent => { negative, whole, fraction, exponent }

/-! ### Range -/

/-- Takes digits onto a number for as long as it fits into 64 bits: the number, and how
many digits it took. -/
def takeOn (n : Nat) : List Char → Nat × Nat
  | [] => (n, 0)
  | d :: ds =>
    let m := n * 10 + digitValue d
    if m < longWordLimit then
      let (m, taken) := takeOn m ds
      (m, taken + 1)
    else (n, 0)

/-- The digits that count, and the power of ten that goes with them.  A digit before the
point that does not fit leaves its place to the power. -/
def scaled (x : Number) : Nat × Int :=
  let (n, taken) := takeOn 0 x.whole
  let (n, places) := takeOn n (x.fraction.getD [])
  (n, x.exponent.getD 0 + x.whole.length - taken - places)

/-- The nearest whole number of at most 53 significant bits; of two, the even one. -/
def round53 (n : Nat) : Nat :=
  let shift := n.log2 - 52
  roundHalfEven n (1 <<< shift) <<< shift

/-- The largest power of ten among the 64-bit floats. -/
def maxPower : Nat := 308

/-- Whether a number times a power of ten stays finite as a 64-bit float. -/
def isFinite (n : Nat) (power : Int) : Bool :=
  n = 0 || power < 0 ||
    (power ≤ maxPower && round53 (round53 n * round53 (Nat.pow 10 power.toNat)) < 1 <<< 1024)

/-! ### Value -/

/-- The value of a number that is an integer of 64 bits.  There is no negative zero. -/
def int? (x : Number) : Option Int :=
  let n := digitsValue x.whole
  if x.fraction.isSome || x.exponent.isSome then none
  else if x.negative then if 0 < n && 2 * n ≤ longWordLimit then some (-n) else none
  else if n < longWordLimit then some n
  else none

/-- The value of a number with the given spelling. -/
def toJson (x : Number) (spelling : List Char) : Json :=
  match x.int? with
  | some i => .int i
  | none =>
    let (n, power) := x.scaled
    if isFinite n power then .real (String.ofList spelling) else .unreadable

end Number

/-- The value of a number. -/
def number? (spelling : List Char) : Option Json :=
  (Number.ofSpelling? spelling).map fun x => x.toJson spelling

end Json

end PointerKinds
