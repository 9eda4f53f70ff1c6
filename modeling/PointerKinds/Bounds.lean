/-
Lengths of arrays.

The length of an array may be given by an expression over constants and names.  It is
usable only where all its names are in scope: the fields of a record belong to pointers
in the same record, parameters and locals to pointers that are variables.  What kind of
bounds an expression gives is settled by its names; constants adapt to them, and names
of different kinds do not mix.
-/
import PointerKinds.SortedMap
import PointerKinds.SortedSet
import PointerKinds.Constraint.Formula

namespace PointerKinds

/-- Where the names of a length come from. -/
inductive BoundsKind where
  /-- No names but global ones. -/
  | constant
  /-- Fields of the same record. -/
  | field
  /-- Parameters of the function. -/
  | param
  /-- Locals of the function. -/
  | local
  /-- The length is an allocation size in bytes. -/
  | byteCount
deriving DecidableEq

namespace BoundsKind

/-- The place of a kind in listings. -/
def rank : BoundsKind → Nat
  | constant => 1
  | field => 2
  | param => 3
  | «local» => 4
  | byteCount => 5

theorem rank_inj {a b : BoundsKind} (h : a.rank = b.rank) : a = b := by
  cases a <;> cases b <;> simp_all [rank]

instance : Ord BoundsKind := ⟨compareOn rank⟩

instance : Std.TransOrd BoundsKind := inferInstanceAs (Std.TransCmp (compareOn rank))

instance : Std.LawfulEqOrd BoundsKind where
  eq_of_compare h := rank_inj (Std.LawfulEqOrd.eq_of_compare (α := Nat) h)

end BoundsKind

/-- A usable length. -/
structure Bounds where
  kind : BoundsKind
  expr : String
deriving DecidableEq

namespace Bounds

instance : Ord Bounds := ⟨compareLex (compareOn kind) (compareOn expr)⟩

instance : Std.TransOrd Bounds :=
  inferInstanceAs <| Std.TransCmp <| compareLex (compareOn kind) (compareOn expr)

instance : Std.LawfulEqOrd Bounds where
  eq_of_compare := by
    intro a b h
    simp only [compare, compareLex_eq_eq] at h
    have h₁ : a.kind = b.kind := Std.LawfulEqOrd.eq_of_compare h.1
    have h₂ : a.expr = b.expr := Std.LawfulEqOrd.eq_of_compare h.2
    cases a; cases b; simp_all

/-- A length in bytes is told from a length in elements. -/
def text (b : Bounds) : String :=
  if b.kind = .byteCount then "byte_count(" ++ b.expr ++ ")" else "count(" ++ b.expr ++ ")"

/-- The kind of a length built from two others. -/
def combineKinds? (a b : BoundsKind) : Option BoundsKind :=
  if a = .constant then some b
  else if b = .constant then some a
  else if a = b then some a
  else none

/-- Joins two lengths by an operator. -/
def combine? (op : String) (a b : Option Bounds) : Option Bounds :=
  a.bind fun a => b.bind fun b => (combineKinds? a.kind b.kind).map fun kind =>
    ⟨kind, "(" ++ a.expr ++ " " ++ op ++ " " ++ b.expr ++ ")"⟩

end Bounds

/-! ### Expressions -/

/-- A length as it stands in the source. -/
inductive BoundsExpr where
  | literal (value : Nat)
  | sizeOf (type : String)
  /-- The length of a string literal, without its terminator. -/
  | stringLiteral (text : String)
  | global (name : String)
  | param (name : String)
  | local (name : String)
  | field (record name : String)
  | binary (op : String) (lhs rhs : BoundsExpr)
deriving DecidableEq

/-- What the bounded pointer is. -/
inductive BoundsOwner where
  | field (record : String)
  | variable
deriving DecidableEq

namespace BoundsExpr

/-- The length that an expression gives to a pointer, if it is usable there. -/
def classify? (owner : BoundsOwner) : BoundsExpr → Option Bounds
  | literal n => some ⟨.constant, toString n⟩
  | sizeOf ty => some ⟨.constant, "sizeof(" ++ ty ++ ")"⟩
  | stringLiteral text => some ⟨.constant, toString text.length⟩
  | global name => some ⟨.constant, name⟩
  | field record name => if owner = .field record then some ⟨.field, name⟩ else none
  | param name => if owner = .variable then some ⟨.param, name⟩ else none
  | «local» name => if owner = .variable then some ⟨.local, name⟩ else none
  | binary op lhs rhs => Bounds.combine? op (lhs.classify? owner) (rhs.classify? owner)

end BoundsExpr

/-! ### The bounds of atoms -/

/-- The lengths known for atoms. -/
abbrev BoundsTable := SortedMap AtomKey (SortedSet Bounds)

namespace BoundsTable

/-- The lengths known for an atom. -/
def at? (t : BoundsTable) (key : AtomKey) : Option (SortedSet Bounds) := SortedMap.get? t key

/-- Whether adding a length would tell anything new. -/
def isNews (t : BoundsTable) (key : AtomKey) (b : Option Bounds) : Bool :=
  match b with
  | some b => !(SortedMap.getD t key ∅).contains b
  | none => false

/-- Adds a length, if it is usable. -/
def add (t : BoundsTable) (key : AtomKey) (b : Option Bounds) : BoundsTable :=
  match b with
  | some b => SortedMap.insert t key ((SortedMap.getD t key ∅).insert b)
  | none => t

/-- Whether some length is known for an atom. -/
def has (t : BoundsTable) (key : AtomKey) : Bool := !(SortedMap.getD t key ∅).isEmpty

end BoundsTable

end PointerKinds
