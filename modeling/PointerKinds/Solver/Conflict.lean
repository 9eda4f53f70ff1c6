/-
What a solution leaves unsatisfied.

A report names every refusal of the accepted round and every constraint in force that
the outcome violates, unless a refusal already speaks for it.  It is a map from sites,
so it is sorted by constraint and atom and names no site twice.
-/
import PointerKinds.Solver.Run

namespace PointerKinds

/-- What is wrong at a site. -/
inductive Conflict where
  /-- A filter kept the atom from rising as far as the constraint asked. -/
  | refused (r : Refusal)
  /-- Two atoms that should agree differ. -/
  | unequalAtoms
  /-- An atom is below a kind that it should reach. -/
  | belowKind
  /-- Two different kinds are equated. -/
  | kindMismatch
  /-- The body of a negation is true. -/
  | negationFails
  /-- A premise is true and its conclusion does not hold. -/
  | implicationFails
deriving DecidableEq

namespace Formula

/-- How an environment violates a formula at top level, and the atom to blame. -/
def violation? (env : AtomKey → Kind) : Formula → Option (Option AtomKey × Conflict)
  | .eq (.atom a) (.atom b) => if env a = env b then none else some (some a, .unequalAtoms)
  | .eq (.atom key) (.kind k) => if env key < k then some (some key, .belowKind) else none
  | .eq (.kind a) (.kind b) => if a = b then none else some (none, .kindMismatch)
  | .eq (.kind _) (.atom _) => none
  | .not body =>
    if body.truth env = .yes then some (body.atomKind?.map (·.1), .negationFails) else none
  | .implies premise conclusion =>
    if (implies premise conclusion).holds env then none else some (none, .implicationFails)

end Formula

namespace Run

/-- Whether a refusal names a constraint. -/
def hasRefusal (run : Run) (id : ConstraintId) : Bool :=
  run.refusals.keys.any fun site => site.constraint = id

/-- Adds what a constraint violates to a report. -/
def reportViolation (run : Run) (report : SortedMap Site Conflict) (c : ConstraintId × Formula) :
    SortedMap Site Conflict :=
  if run.hasRefusal c.1 then report
  else
    match c.2.violation? run.value with
    | some (key, conflict) => report.insert ⟨c.1, key⟩ conflict
    | none => report

/-- The refusals of a run and the violations it leaves. -/
def conflicts (s : Store) (run : Run) : SortedMap Site Conflict :=
  s.activeFormulas.foldl run.reportViolation (run.refusals.mapValues fun _ r => .refused r)

end Run

end PointerKinds
