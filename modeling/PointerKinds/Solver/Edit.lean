/-
Edits of a solved store.

To make one atom checked again, whatever holds it unchecked is erased, a region around
it is put back to checked pointers, and only that region is solved again.  To drop a
reason, every constraint that made an atom unchecked for this reason is erased and
the store is solved from scratch.
-/
import PointerKinds.Solver.Solve

namespace PointerKinds

namespace Store

/-! ### What holds an atom unchecked -/

/-- Whether an operand hands its unchecked kind on through a constraint: a fixed kind
does, and so does an atom that was not itself made unchecked by the same constraint. -/
def handsOnWild (s : Store) (top : ConstraintId) : Operand → Bool
  | .kind k => k = .wild
  | .atom key => s.value key = .wild && s.forcedBy.get? key ≠ some top

/-- Whether a formula, standing inside a top-level constraint, holds an atom unchecked. -/
def forcesWild (s : Store) (top : ConstraintId) (key : AtomKey) : Formula → Bool
  | .eq lhs rhs =>
    if lhs = .atom key then s.handsOnWild top rhs
    else if rhs = .atom key then s.handsOnWild top lhs
    else false
  | .not _ => false
  | .implies premise conclusion => premise.truth s.value = .yes && s.forcesWild top key conclusion

/-- The constraints in force that hold an atom unchecked. -/
def wildForcing (s : Store) (key : AtomKey) : List ConstraintId :=
  ((s.formulasAt key).filter fun c => s.forcesWild c.1 key c.2).map (·.1)

/-! ### The edits -/

/-- Puts atoms back to checked pointers. -/
def lower (s : Store) (keys : List AtomKey) : Store :=
  { s with
    env := keys.foldl (fun env key => env.insert key .ptr) s.env
    forcedBy := keys.foldl (fun causes key => causes.erase key) s.forcedBy }

/-- Erases what holds an atom unchecked and solves a region around it again.  The first
component lists the atoms of the region that were unchecked and are not any more. -/
def makeNonWild (s : Store) (key : AtomKey) (region : List AtomKey) : List AtomKey × Store :=
  if s.value key = .wild then
    let s := (s.wildForcing key).foldl erase s
    let region := (SortedSet.ofList (key :: region.filter s.atoms.contains)).toList
    let lost := region.filter fun k => s.value k = .wild
    let s := s.lower region
    let s := s.commit (s.solution region).run
    (lost.filter fun k => s.value k ≠ .wild, s)
  else ([], s)

/-- The constraints in force that make an atom unchecked for a given reason. -/
def wildWithReason (s : Store) (reason : String) : List ConstraintId :=
  s.active.filter fun id =>
    match s.constraint? id with
    | some c => c.why.reason == reason && (c.formula.atomKind?.map (·.2)) == some .wild
    | none => false

/-- Erases what makes atoms unchecked for a reason, and solves from scratch. -/
def eraseReason (s : Store) (reason : String) : List ConstraintId × Outcome × Store :=
  let targets := s.wildWithReason reason
  (targets, (targets.foldl erase s).reset.solve)

end Store

end PointerKinds
