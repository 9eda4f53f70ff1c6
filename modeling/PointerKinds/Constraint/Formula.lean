/-
Formulas over pointer kinds.

A constraint says that two operands agree, that a formula fails, or that one formula
implies another.  An operand is a kind or an atom, the unknown kind of one pointer
level.

Equality with a kind is read as a lower bound: an atom above the kind it is asked to
equal has given up more than was asked for, and the demand is met.  So there are two
readings of a formula in an environment.  `truth` is the strict one, with a middle
value for what may still become true as atoms rise; `holds` is the generous one, by
which a solution is judged.
-/
import PointerKinds.Kind
import PointerKinds.SortedSet

namespace PointerKinds

/-- The number of an atom. -/
abbrev AtomKey := Nat

/-! ### Operands -/

/-- One side of an equality. -/
inductive Operand where
  /-- The kind of an atom. -/
  | atom (key : AtomKey)
  /-- A fixed kind. -/
  | kind (kind : Kind)
deriving DecidableEq

namespace Operand

/-- The atom of an operand. -/
def key? : Operand → Option AtomKey
  | atom key => some key
  | kind _ => none

/-- The fixed kind of an operand. -/
def kind? : Operand → Option Kind
  | atom _ => none
  | kind k => some k

/-- Atoms come before kinds; atoms are ordered by key, kinds by rank. -/
def order : Operand → Operand → Ordering
  | atom a, atom b => compare a b
  | atom _, kind _ => .lt
  | kind _, atom _ => .gt
  | kind a, kind b => compare a b

instance : Ord Operand := ⟨order⟩

/-- What the operand stands for. -/
def value (env : AtomKey → Kind) : Operand → Kind
  | atom key => env key
  | kind k => k

/-- An atom is spelled by its number, a kind by its name. -/
def text : Operand → String
  | atom key => s!"q_{key}"
  | kind k => k.name

end Operand

/-! ### Truth values -/

/-- What can be said of a formula while atoms may still rise. -/
inductive Truth where
  | yes
  | no
  | maybe
deriving DecidableEq

/-- What is open stays open. -/
def Truth.negate : Truth → Truth
  | yes => no
  | no => yes
  | maybe => maybe

/-! ### Formulas -/

/-- A demand on the kinds of atoms. -/
inductive Formula where
  /-- Both operands agree. -/
  | eq (lhs rhs : Operand)
  /-- The body is not true. -/
  | not (body : Formula)
  /-- If the premise is true, the conclusion is demanded. -/
  | implies (premise conclusion : Formula)
deriving DecidableEq

namespace Formula

/-- The equality of two operands, the lesser operand first. -/
def equal (a b : Operand) : Formula :=
  if compare a b = .gt then eq b a else eq a b

/-- The atom and the kind of an equality between such. -/
def atomKind? : Formula → Option (AtomKey × Kind)
  | eq (.atom key) (.kind k) => some (key, k)
  | _ => none

/-- The two atoms of an equality between such. -/
def atomAtom? : Formula → Option (AtomKey × AtomKey)
  | eq (.atom a) (.atom b) => some (a, b)
  | _ => none

/-- The atoms on the two sides of an equality, none for other formulas. -/
def sides : Formula → List AtomKey
  | eq lhs rhs => lhs.key?.toList ++ rhs.key?.toList
  | _ => []

/-- Every mention of an atom, from left to right. -/
def mentions : Formula → List AtomKey
  | eq lhs rhs => lhs.key?.toList ++ rhs.key?.toList
  | not body => body.mentions
  | implies premise conclusion => premise.mentions ++ conclusion.mentions

/-- The atoms a formula mentions. -/
def atoms (f : Formula) : SortedSet AtomKey := .ofList f.mentions

theorem mem_atoms {f : Formula} {key : AtomKey} : key ∈ f.atoms ↔ key ∈ f.mentions :=
  SortedSet.mem_ofList

/-- Operands are spelled out; bodies, premises and conclusions stand in brackets. -/
def text : Formula → String
  | eq lhs rhs => lhs.text ++ " == " ++ rhs.text
  | not body => "~(" ++ body.text ++ ")"
  | implies premise conclusion => "(" ++ premise.text ++ ") => (" ++ conclusion.text ++ ")"

/-! ### The two readings -/

/-- Two fixed kinds agree or not.  An atom below the kind it is compared with may still
reach it, one above it never will.  Two atoms that differ may still meet. -/
def equalityTruth (env : AtomKey → Kind) : Operand → Operand → Truth
  | .kind a, .kind b => if a = b then .yes else .no
  | .atom key, .kind k | .kind k, .atom key =>
    if env key = k then .yes else if k < env key then .no else .maybe
  | .atom a, .atom b => if env a = env b then .yes else .maybe

/-- A fixed kind is a lower bound for an atom; otherwise both sides must agree. -/
def equalityHolds (env : AtomKey → Kind) : Operand → Operand → Bool
  | .atom key, .kind k | .kind k, .atom key => k ≤ env key
  | .atom a, .atom b => env a = env b
  | .kind a, .kind b => a = b

mutual

/-- The strict reading. -/
def truth (env : AtomKey → Kind) : Formula → Truth
  | eq lhs rhs => equalityTruth env lhs rhs
  | not body => (body.truth env).negate
  | implies premise conclusion =>
    match premise.truth env with
    | .no => .yes
    | .yes => if conclusion.holds env then .yes else .no
    | .maybe => if conclusion.holds env then .yes else .maybe

/-- The generous reading. -/
def holds (env : AtomKey → Kind) : Formula → Bool
  | eq lhs rhs => equalityHolds env lhs rhs
  | not body => body.truth env != .yes
  | implies premise conclusion => premise.truth env != .yes || conclusion.holds env

end

/-- A premise whose truth, once reached, is never lost: two fixed kinds, or an atom at
the top of the chain. -/
def isFinal : Formula → Bool
  | eq (.kind _) (.kind _) => true
  | eq (.atom _) (.kind k) => k = .wild
  | _ => false

end Formula

end PointerKinds
