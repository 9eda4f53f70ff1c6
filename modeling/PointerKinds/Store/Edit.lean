/-
Taking constraints back.

Removing a constraint is final.  Erasing suspends it: every atom that counts it among
the constraints in force moves it to its erased ones, and restoring what was erased
from an atom moves it back, with all atoms it mentions.

None of these touches the kinds found so far; solving again does.
-/
import PointerKinds.Store.Basic

namespace PointerKinds

namespace Store

/-- Changes what is recorded about every atom that a constraint mentions. -/
def modifyAtomsOf (s : Store) (id : ConstraintId) (f : Atom → Atom) : Store :=
  match s.formula? id with
  | some g => g.atoms.toList.foldl (fun s key => s.modifyAtom key f) s
  | none => s

/-- Takes a top-level constraint out, erased or not.  Its number stays its own. -/
def remove (s : Store) (id : ConstraintId) : Store :=
  if s.topLevel.contains id then
    let s := { s with topLevel := s.topLevel.erase id, erased := s.erased.erase id }
    s.modifyAtomsOf id (·.detach id)
  else s

/-- Whether a constraint is in force. -/
def isActive (s : Store) (id : ConstraintId) : Bool :=
  s.topLevel.contains id && !s.erased.contains id

/-- Suspends a constraint in force. -/
def erase (s : Store) (id : ConstraintId) : Store :=
  if s.isActive id then
    { s with erased := s.erased.insert id }.modifyAtomsOf id (·.erase id)
  else s

/-- The erased constraints that an atom remembers. -/
def restorable (s : Store) (key : AtomKey) : List ConstraintId :=
  match s.atoms.get? key with
  | some a => a.erased.toList
  | none => []

/-- Puts one constraint back in force. -/
def reinstate (s : Store) (id : ConstraintId) : Store :=
  { s with erased := s.erased.erase id }.modifyAtomsOf id (·.restore id)

/-- Puts every erased constraint that an atom remembers back in force. -/
def restore (s : Store) (key : AtomKey) : Store :=
  (s.restorable key).foldl reinstate (s.modifyAtom key (·.restoreAll))

/-- Every atom back to a checked pointer, and nobody unchecked. -/
def reset (s : Store) : Store :=
  { s with env := s.env.mapValues fun _ _ => .ptr, forcedBy := ∅ }

end Store

end PointerKinds
