/-
What is recorded about one atom.

An atom carries a filter, the kinds it may never take; preferences, which are
followed only where nothing contradicts them; and the numbers of the constraints
that mention it, split into those in force and those erased.
-/
import PointerKinds.Kind
import PointerKinds.SortedSet

namespace PointerKinds

/-- The number of a constraint. -/
abbrev ConstraintId := Nat

/-- Wishes about an atom that yield to every constraint. -/
structure SoftPreferences where
  /-- Declared as a pointer into an array. -/
  shouldBeArr : Bool := false
  /-- Declared as a pointer into a null-terminated array. -/
  shouldBeNtArr : Bool := false
  /-- A pointer to characters: if it is an array at all, then a null-terminated one. -/
  ifArrThenNtArr : Bool := false
deriving DecidableEq

namespace SoftPreferences

/-- Whether something speaks for a null-terminated array. -/
def wantsNtArr (p : SoftPreferences) : Bool := p.shouldBeNtArr || p.ifArrThenNtArr

/-- Whether a null-terminated array is preferred to a plain one. -/
def prefersNtArr (p : SoftPreferences) : Bool := !p.shouldBeArr && p.wantsNtArr

end SoftPreferences

/-- The unknown kind of one pointer level. -/
structure Atom where
  /-- The kinds the atom may never take. -/
  forbidden : SortedSet Kind := ∅
  soft : SoftPreferences := {}
  /-- The constraints in force that mention the atom. -/
  active : SortedSet ConstraintId := ∅
  /-- The erased constraints that mention the atom. -/
  erased : SortedSet ConstraintId := ∅
deriving DecidableEq

namespace Atom

/-- Whether the filter lets a kind pass. -/
def permits (a : Atom) (k : Kind) : Bool := !a.forbidden.contains k

/-- Adds a kind to the filter. -/
def forbid (a : Atom) (k : Kind) : Atom := { a with forbidden := a.forbidden.insert k }

/-- The highest permitted kind strictly below another. -/
def highestBelow (a : Atom) (k : Kind) : Option Kind :=
  Kind.all.reverse.find? fun c => c < k && a.permits c

/-- Records a constraint in force. -/
def attach (a : Atom) (id : ConstraintId) : Atom := { a with active := a.active.insert id }

/-- Forgets a constraint in force. -/
def detach (a : Atom) (id : ConstraintId) : Atom := { a with active := a.active.erase id }

/-- Moves a constraint in force to the erased ones. -/
def erase (a : Atom) (id : ConstraintId) : Atom :=
  if a.active.contains id then
    { a with active := a.active.erase id, erased := a.erased.insert id }
  else a

/-- Moves an erased constraint back in force. -/
def restore (a : Atom) (id : ConstraintId) : Atom :=
  if a.erased.contains id then
    { a with active := a.active.insert id, erased := a.erased.erase id }
  else a

/-- Moves every erased constraint back in force. -/
def restoreAll (a : Atom) : Atom :=
  { a with active := a.active.union a.erased, erased := ∅ }

end Atom

end PointerKinds
