/-
One run of the solver over a fixed store, and the moves it makes.

A run starts from the kinds the store has and only ever raises atoms.  An atom asked
to rise to a kind that its filter bars rises to the highest permitted kind below it
instead, if that is any higher than where it is, and the run remembers the refusal
under the constraint that asked.

An implication passes its conclusion on only once its premise is settled: if the
premise is one that cannot become false again, or if the run has committed itself to
the implication by firing it.

The state of a run holds what later steps or the report need, and the counts that are
reported.  Assignments are counted apart from the record of moves, which a store keeps only
if it was asked to.
-/
import PointerKinds.Store.Basic

namespace PointerKinds

/-! ### Refusals -/

/-- What a report line is about: a constraint and perhaps one of its atoms. -/
structure Site where
  constraint : ConstraintId
  key : Option AtomKey
deriving DecidableEq

namespace Site

instance : Ord Site := ⟨compareLex (compareOn constraint) (compareOn key)⟩

instance : Std.TransOrd Site :=
  inferInstanceAs <| Std.TransCmp <| compareLex (compareOn constraint) (compareOn key)

instance : Std.LawfulEqOrd Site where
  eq_of_compare := by
    intro a b h
    simp only [compare, compareLex_eq_eq] at h
    have h₁ : a.constraint = b.constraint := Std.LawfulEqOrd.eq_of_compare h.1
    have h₂ : a.key = b.key := Std.LawfulEqOrd.eq_of_compare h.2
    cases a; cases b; simp_all

end Site

/-- An atom was asked to rise to a kind that its filter bars. -/
structure Refusal where
  requested : Kind
  /-- Where it rose to instead, if anywhere. -/
  granted : Option Kind
deriving DecidableEq

/-- How far a filter lets an atom rise from its current kind toward a requested one. -/
def Atom.grant (a : Atom) (current requested : Kind) : Option Kind :=
  if a.permits requested then some requested
  else (a.highestBelow requested).filter fun k => current < k

/-! ### The state of a run -/

/-- What a run has done so far. -/
structure Run where
  env : SortedMap AtomKey Kind
  forcedBy : SortedMap AtomKey ConstraintId
  /-- The moves, in order. -/
  moves : List Move := []
  refusals : SortedMap Site Refusal := ∅
  /-- The implications that the run has committed itself to. -/
  fired : List Formula := []
  /-- How many atoms were taken off the queue. -/
  iterations : Nat := 0
  /-- How many times an atom was moved. -/
  assignments : Nat := 0
  /-- How many atoms were promoted for their preferences. -/
  promoted : Nat := 0
deriving DecidableEq

namespace Run

/-- A run about to start. -/
def start (s : Store) : Run where
  env := s.env
  forcedBy := s.forcedBy

/-- The kind of an atom. -/
def value (run : Run) (key : AtomKey) : Kind := run.env.getD key .ptr

/-- Moves an atom.  The constraint that first makes it unchecked is remembered. -/
def assign (run : Run) (key : AtomKey) (k : Kind) (cause : Option ConstraintId) : Run :=
  { run with
    env := run.env.insert key k
    forcedBy :=
      match cause with
      | some id => if k = .wild then run.forcedBy.insertNew key id else run.forcedBy
      | none => run.forcedBy
    moves := run.moves ++ [⟨key, run.value key, k⟩] }

/-- Counts assignments. -/
def count (run : Run) (n : Nat) : Run := { run with assignments := run.assignments + n }

/-- Remembers a refusal; the first one at a site stands. -/
def refuse (run : Run) (site : Site) (r : Refusal) : Run :=
  { run with refusals := run.refusals.insertNew site r }

/-- Lets an atom rise toward a kind on behalf of a constraint, as far as its filter
permits.  The first component is the atom, if it moved. -/
def raise (s : Store) (cause : ConstraintId) (run : Run) (key : AtomKey) (requested : Kind) :
    Option AtomKey × Run :=
  if requested ≤ run.value key then (none, run)
  else
    match s.atoms.get? key with
    | none => (none, run)
    | some a =>
      let granted := a.grant (run.value key) requested
      let run := if granted = some requested then run
        else run.refuse ⟨cause, some key⟩ ⟨requested, granted⟩
      match granted with
      | some k => (some key, (run.assign key k (some cause)).count 1)
      | none => (none, run)

/-- Whether an implication passes its conclusion on. -/
def isLive (run : Run) (f premise : Formula) : Bool :=
  (premise.isFinal || run.fired.contains f) && premise.truth run.value = .yes

/-- Does what a constraint demands now.  The cause is the constraint that stands at top
level, however deep the formula is inside it. -/
def apply (s : Store) (cause : ConstraintId) (run : Run) : Formula → Option AtomKey × Run
  | .eq (.atom key) (.kind k) | .eq (.kind k) (.atom key) => run.raise s cause key k
  | .eq (.atom a) (.atom b) =>
    if run.value a < run.value b then run.raise s cause a (run.value b)
    else run.raise s cause b (run.value a)
  | .eq (.kind _) (.kind _) => (none, run)
  | .not _ => (none, run)
  | .implies premise conclusion =>
    if run.isLive (.implies premise conclusion) premise then run.apply s cause conclusion
    else (none, run)

/-! ### Draining the queue -/

/-- Puts an atom at the end of a queue, unless it is waiting there. -/
def enqueue (queue : List AtomKey) (key : AtomKey) : List AtomKey :=
  if queue.contains key then queue else queue ++ [key]

/-- Applies one constraint; an atom that moved joins the queue. -/
def step (s : Store) (state : Run × List AtomKey) (c : ConstraintId × Formula) :
    Run × List AtomKey :=
  match state.1.apply s c.1 c.2 with
  | (some key, run) => (run, enqueue state.2 key)
  | (none, run) => (run, state.2)

/-- Applies every constraint in force at an atom taken off the queue. -/
def visit (s : Store) (run : Run) (key : AtomKey) (queue : List AtomKey) : Run × List AtomKey :=
  (s.formulasAt key).foldl (step s) ({ run with iterations := run.iterations + 1 }, queue)

/-- Visits the atoms of a queue until it is empty. -/
def drain (s : Store) : Nat → Run → List AtomKey → Run
  | _, run, [] => run
  | 0, run, _ => run
  | fuel + 1, run, key :: queue =>
    let (run, queue) := run.visit s key queue
    drain s fuel run queue

/-- Visits the given atoms and all that move in consequence.  Every visit is owed to a
seed or to a move, and an atom moves at most three times. -/
def propagate (s : Store) (run : Run) (seeds : List AtomKey) : Run :=
  let queue := seeds.foldl enqueue []
  run.drain s (queue.length + 3 * s.atoms.size + 1) queue

end Run

end PointerKinds
