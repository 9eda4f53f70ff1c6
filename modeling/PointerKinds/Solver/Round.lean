/-
One round of solving.

A round drains the queue and then fires, one at a time, implications that wait: their
premise is true but might yet become false.  After that come the preferences.  An
atom's component is all it is joined to by equalities between plain arrays; if some
member would rather be null-terminated and nothing holds any member back, the whole
component is promoted, and the round goes on from there.

A round may turn out to have fired an implication whose premise is false in the end.
Such a round is not accepted; which implications are to blame is all it leaves.
-/
import PointerKinds.Solver.Run

namespace PointerKinds

namespace Run

/-! ### Waiting implications -/

/-- Whether a formula is an implication to be fired now. -/
def isWaiting (run : Run) (blocked : List Formula) : Formula → Bool
  | .implies premise conclusion =>
    !premise.isFinal && !run.fired.contains (.implies premise conclusion) &&
    !blocked.contains (.implies premise conclusion) &&
    premise.truth run.value = .yes && !conclusion.holds run.value
  | _ => false

/-- The first waiting implication in force. -/
def waiting? (s : Store) (blocked : List Formula) (run : Run) : Option (ConstraintId × Formula) :=
  s.activeFormulas.find? fun c => run.isWaiting blocked c.2

/-- Commits the run to an implication and does what its conclusion demands. -/
def fire (s : Store) (run : Run) (id : ConstraintId) (f : Formula) : Run :=
  let run := { run with fired := run.fired ++ [f] }
  match f with
  | .implies _ conclusion =>
    match run.apply s id conclusion with
    | (some key, run) => run.propagate s [key]
    | (none, run) => run
  | _ => run

/-- Fires waiting implications until none waits. -/
def fireAll (s : Store) (blocked : List Formula) : Nat → Run → Run
  | 0, run => run
  | fuel + 1, run =>
    match run.waiting? s blocked with
    | some (id, f) => fireAll s blocked fuel (run.fire s id f)
    | none => run

/-- Visits the given atoms, then fires what waits.  Nothing is fired twice, so there are
no more firings than constraints in force. -/
def settle (s : Store) (blocked : List Formula) (run : Run) (seeds : List AtomKey) : Run :=
  (run.propagate s seeds).fireAll s blocked s.active.length

/-! ### Preferences -/

/-- The atoms at `arr` that an equality in force joins to an atom. -/
def arrNeighbours (s : Store) (run : Run) (key : AtomKey) : List AtomKey :=
  (s.formulasAt key).filterMap fun c =>
    match c.2.atomAtom? with
    | some (a, b) =>
      let other := if a = key then b else a
      if run.value other = .arr then some other else none
    | none => none

/-- Notes an atom met for the first time. -/
def meet (state : List AtomKey × List AtomKey) (key : AtomKey) : List AtomKey × List AtomKey :=
  if state.1.contains key then state else (state.1 ++ [key], key :: state.2)

/-- Follows neighbours from the atoms on a stack, adding to the atoms met. -/
def explore (s : Store) (run : Run) : Nat → List AtomKey → List AtomKey → List AtomKey
  | _, met, [] => met
  | 0, met, _ => met
  | fuel + 1, met, key :: stack =>
    let (met, stack) := (run.arrNeighbours s key).foldl meet (met, stack)
    explore s run fuel met stack

/-- The atoms at `arr`, ascending. -/
def arrAtoms (run : Run) : List AtomKey :=
  run.env.keys.filter fun key => run.value key = .arr

/-- All that an atom is joined to through atoms at `arr`.  Every atom is taken off the
stack once. -/
def component (s : Store) (run : Run) (key : AtomKey) : List AtomKey :=
  run.explore s (run.arrAtoms.length + 1) [key] [key]

/-- Whether an atom speaks for promotion. -/
def wantsPromotion (s : Store) (key : AtomKey) : Bool :=
  match s.atoms.get? key with
  | some a => a.soft.wantsNtArr
  | none => false

/-- Whether an atom stands against promotion: it prefers a plain array, its filter bars a
null-terminated one, or a constraint in force equates it with a plain array. -/
def blocksPromotion (s : Store) (key : AtomKey) : Bool :=
  match s.atoms.get? key with
  | some a =>
    a.soft.shouldBeArr || !a.permits .ntArr ||
      (s.formulasAt key).any fun c => c.2.atomKind? = some (key, .arr)
  | none => true

/-- The atoms to be promoted: those whose component has a member for it and none against. -/
def promotions (s : Store) (run : Run) : List AtomKey :=
  run.arrAtoms.filter fun key =>
    let members := run.component s key
    members.any (wantsPromotion s) && !members.any (blocksPromotion s)

/-- Promotes atoms, and counts them only then. -/
def promote (run : Run) (keys : List AtomKey) : Run :=
  let run := keys.foldl (fun run key => run.assign key .ntArr none) run
  { run.count keys.length with promoted := run.promoted + keys.length }

/-! ### The round -/

/-- A whole round from the store's own kinds. -/
def round (s : Store) (seeds : List AtomKey) (blocked : List Formula) : Run :=
  let run := (Run.start s).settle s blocked seeds
  let chosen := run.promotions s
  (run.promote chosen).settle s blocked chosen

/-- The fired implications whose premise is not true after all. -/
def stale (run : Run) : List Formula :=
  run.fired.filter fun f =>
    match f with
    | .implies premise _ => premise.truth run.value != .yes
    | _ => false

end Run

end PointerKinds
