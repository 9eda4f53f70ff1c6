/-
Solving a store.

Rounds are run from the same start until one is accepted.  Each rejected round blocks
at least one implication in force for all later rounds, so there are at most as many
restarts as implications.  Only the accepted round reaches the store: its kinds, the
constraints that made atoms unchecked, and its moves.
-/
import PointerKinds.Solver.Round
import PointerKinds.Solver.Conflict
import PointerKinds.Store.Edit

namespace PointerKinds

/-- The accepted round and what it took to find it. -/
structure Solution where
  run : Run
  /-- The implications that may not be fired. -/
  blocked : List Formula
  /-- How many atoms were taken off the queue in all rounds. -/
  iterations : Nat
  /-- How many rounds were rejected. -/
  restarts : Nat
deriving DecidableEq

/-- The counts of a solver run. -/
structure SolveStats where
  iterations : Nat
  assignments : Nat
  promoted : Nat
  restarts : Nat
deriving DecidableEq

namespace Solution

/-- The counts reported to a caller. -/
def stats (sol : Solution) : SolveStats where
  iterations := sol.iterations
  assignments := sol.run.assignments
  promoted := sol.run.promoted
  restarts := sol.restarts

end Solution

/-- What a caller is told about a solver run. -/
structure Outcome where
  stats : SolveStats
  conflicts : SortedMap Site Conflict
deriving DecidableEq

/-- A store is solved if nothing is left unsatisfied. -/
def Outcome.isSolved (o : Outcome) : Bool := o.conflicts.isEmpty

namespace Store

/-- Runs rounds until one is accepted. -/
def accept (s : Store) (seeds : List AtomKey) : Nat → List Formula → Nat → Nat → Solution
  | 0, blocked, iterations, restarts =>
    let run := Run.round s seeds blocked
    ⟨run, blocked, iterations + run.iterations, restarts⟩
  | fuel + 1, blocked, iterations, restarts =>
    let run := Run.round s seeds blocked
    if run.stale.isEmpty then ⟨run, blocked, iterations + run.iterations, restarts⟩
    else accept s seeds fuel (blocked ++ run.stale) (iterations + run.iterations) (restarts + 1)

/-- The solution found from the store's own kinds, visiting the given atoms first. -/
def solution (s : Store) (seeds : List AtomKey) : Solution :=
  s.accept seeds s.active.length [] 0 0

/-- Takes over what a run found out. -/
def commit (s : Store) (run : Run) : Store :=
  { s with
    env := run.env
    forcedBy := run.forcedBy
    trace := s.trace.map (· ++ run.moves) }

/-- Solves every constraint in force from the kinds the store has. -/
def solve (s : Store) : Outcome × Store :=
  let sol := s.solution s.atoms.keys
  (⟨sol.stats, sol.run.conflicts s⟩, s.commit sol.run)

end Store

end PointerKinds
