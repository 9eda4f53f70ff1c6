/-
The root causes of a solved store.

Every unchecked atom was made so by one constraint, the first that did it.  If that
constraint took the kind from another atom, the two atoms are in one group; if not,
the constraint itself is the reason.
-/
import PointerKinds.Store.Basic
import PointerKinds.RootCauses.Basic

namespace PointerKinds

/-- Where an unchecked atom has its kind from. -/
inductive WildSource where
  /-- From a constraint alone. -/
  | direct (why : Explanation)
  /-- From another atom. -/
  | atom (key : AtomKey)
deriving DecidableEq

namespace Formula

/-- What an equality sets against an atom. -/
def otherSide? (key : AtomKey) : Formula → Option Operand
  | .eq lhs rhs =>
    if lhs = .atom key then some rhs else if rhs = .atom key then some lhs else none
  | _ => none

/-- The atom that an equality sets against an atom. -/
def otherAtom? (key : AtomKey) (f : Formula) : Option AtomKey := (f.otherSide? key).bind (·.key?)

end Formula

namespace Store

/-- The constraint with a formula. -/
def constraintFor? (s : Store) (f : Formula) : Option Constraint := (s.find? f).bind s.constraint?

/-- Where a constraint that made an atom unchecked had the kind from.  An implication
passes it on from the atom its conclusion equates, or else from the least unchecked
atom of its premise; without either, the explanation of its conclusion steps in for
one of its own. -/
def sourceIn (s : Store) (c : Constraint) (key : AtomKey) : WildSource :=
  match c.formula with
  | .eq lhs rhs =>
    match (Formula.eq lhs rhs).otherAtom? key with
    | some other => .atom other
    | none => .direct c.why
  | .not _ => .direct c.why
  | .implies premise conclusion =>
    match conclusion.otherAtom? key with
    | some other => .atom other
    | none =>
      match premise.atoms.toList.find? fun k => s.value k = .wild with
      | some other => .atom other
      | none =>
        match s.constraintFor? conclusion with
        | some d => .direct (c.why.orLater d.why)
        | none => .direct c.why

/-- Where an unchecked atom has its kind from.  An atom that no constraint made
unchecked has the default explanation. -/
def wildSource (s : Store) (key : AtomKey) : WildSource :=
  match (s.forcedBy.get? key).bind s.constraint? with
  | some c => s.sourceIn c key
  | none => .direct {}

/-- The unchecked atoms, ascending. -/
def wildAtoms (s : Store) : List AtomKey := s.env.keys.filter fun key => s.value key = .wild

end Store

namespace RootCauses

/-- Takes one atom's source into account.  A source that is not itself unchecked
explains nothing. -/
def trace (s : Store) (c : RootCauses) (key : AtomKey) : RootCauses :=
  match s.wildSource key with
  | .direct why => c.blame key why
  | .atom other => if c.contains other then c.merge key other else c.blame key {}

/-- The groups of a solved store. -/
def ofStore (s : Store) : RootCauses :=
  (s.wildAtoms.foldl (trace s) (discrete s.wildAtoms)).complete

end RootCauses

end PointerKinds
