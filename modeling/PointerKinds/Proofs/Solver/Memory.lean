/-
What atoms remember of erased constraints plays no part in solving.

An atom keeps two records, of the constraints in force and of the erased ones.  The solver
reads the first.  The second is there for restoring alone, and here it is changed at will,
atom by atom: every step of the solver does the same after that as before, so every round and
every solution is the same.
-/
import PointerKinds.Proofs.Solver.Replay

namespace PointerKinds

/-- An atom with another record of erased constraints. -/
def Atom.recall (a : Atom) (erased : SortedSet ConstraintId) : Atom := { a with erased }

namespace Store

/-- Changes what the atoms remember of erased constraints. -/
def remember (s : Store) (g : AtomKey → SortedSet ConstraintId → SortedSet ConstraintId) : Store :=
  { s with atoms := s.atoms.mapValues fun key a => a.recall (g key a.erased) }

variable (s : Store) (g : AtomKey → SortedSet ConstraintId → SortedSet ConstraintId)

/-! ### Reading -/

theorem get?_remember (key : AtomKey) :
    (s.remember g).atoms.get? key = (s.atoms.get? key).map fun a => a.recall (g key a.erased) :=
  SortedMap.get?_mapValues ..

theorem contains_remember (key : AtomKey) : (s.remember g).atoms.contains key = s.atoms.contains key := by
  unfold SortedMap.contains
  rw [get?_remember, Option.isSome_map]

theorem keys_remember : (s.remember g).atoms.keys = s.atoms.keys := by
  unfold remember SortedMap.mapValues SortedMap.keys
  rw [List.map_map]
  rfl

theorem formulasAt_remember (key : AtomKey) : (s.remember g).formulasAt key = s.formulasAt key := by
  unfold formulasAt
  rw [get?_remember]
  cases s.atoms.get? key <;> rfl

theorem wildForcing_remember (key : AtomKey) : (s.remember g).wildForcing key = s.wildForcing key := by
  have hforces : ∀ (top : ConstraintId) (f : Formula),
      (s.remember g).forcesWild top key f = s.forcesWild top key f := by
    intro top f
    induction f with
    | eq | not => rfl
    | implies p c _ ih => exact congrArg (_ && ·) ih
  unfold wildForcing
  simp only [formulasAt_remember, hforces]

end Store

/-! ### One round -/

namespace Run

variable (s : Store) (g : AtomKey → SortedSet ConstraintId → SortedSet ConstraintId) (run : Run)

theorem raise_remember (id : ConstraintId) (key : AtomKey) (k : Kind) :
    run.raise (s.remember g) id key k = run.raise s id key k := by
  unfold raise
  rw [Store.get?_remember]
  cases s.atoms.get? key <;> rfl

theorem apply_remember (id : ConstraintId) (f : Formula) :
    run.apply (s.remember g) id f = run.apply s id f := by
  induction f with
  | eq l r => cases l <;> cases r <;> simp only [apply, raise_remember]
  | not body => rfl
  | implies p c _ ih => simp only [apply, ih]

theorem step_remember : Run.step (s.remember g) = Run.step s := by
  funext state c
  unfold Run.step
  rw [apply_remember]

theorem visit_remember (key : AtomKey) (queue : List AtomKey) :
    run.visit (s.remember g) key queue = run.visit s key queue := by
  unfold visit
  rw [Store.formulasAt_remember, step_remember]

theorem drain_remember (fuel : Nat) (queue : List AtomKey) :
    run.drain (s.remember g) fuel queue = run.drain s fuel queue := by
  induction fuel generalizing run queue with
  | zero => cases queue <;> rfl
  | succ fuel ih =>
      cases queue with
      | nil => rfl
      | cons key rest => simp only [drain, visit_remember, ih]

theorem propagate_remember (seeds : List AtomKey) :
    run.propagate (s.remember g) seeds = run.propagate s seeds := by
  unfold propagate
  rw [drain_remember, SortedMap.size_eq, Store.keys_remember, ← SortedMap.size_eq]

theorem fire_remember (id : ConstraintId) (f : Formula) :
    run.fire (s.remember g) id f = run.fire s id f := by
  cases f with
  | eq | not => rfl
  | implies p c => simp only [fire, apply_remember, propagate_remember]

theorem fireAll_remember (blocked : List Formula) (fuel : Nat) :
    fireAll (s.remember g) blocked fuel run = fireAll s blocked fuel run := by
  induction fuel generalizing run with
  | zero => rfl
  | succ fuel ih =>
      simp only [fireAll, fire_remember, ih]
      rfl

theorem settle_remember (blocked : List Formula) (seeds : List AtomKey) :
    run.settle (s.remember g) blocked seeds = run.settle s blocked seeds := by
  unfold settle
  rw [propagate_remember, fireAll_remember]
  rfl

theorem component_remember (key : AtomKey) : run.component (s.remember g) key = run.component s key := by
  have hneighbours : ∀ x, run.arrNeighbours (s.remember g) x = run.arrNeighbours s x := fun x => by
    unfold arrNeighbours
    rw [Store.formulasAt_remember]
  have hexplore : ∀ (fuel : Nat) (met stack : List AtomKey),
      run.explore (s.remember g) fuel met stack = run.explore s fuel met stack := by
    intro fuel
    induction fuel with
    | zero => intro met stack; cases stack <;> rfl
    | succ fuel ih =>
        intro met stack
        cases stack with
        | nil => rfl
        | cons key rest => simp only [explore, hneighbours, ih]
  exact hexplore _ _ _

theorem promotions_remember : run.promotions (s.remember g) = run.promotions s := by
  have hwants : wantsPromotion (s.remember g) = wantsPromotion s := funext fun key => by
    unfold wantsPromotion
    rw [Store.get?_remember]
    cases s.atoms.get? key <;> rfl
  have hblocks : blocksPromotion (s.remember g) = blocksPromotion s := funext fun key => by
    unfold blocksPromotion
    rw [Store.get?_remember, Store.formulasAt_remember]
    cases s.atoms.get? key <;> rfl
  unfold promotions
  simp only [component_remember, hwants, hblocks]

theorem round_remember (seeds : List AtomKey) (blocked : List Formula) :
    round (s.remember g) seeds blocked = round s seeds blocked := by
  unfold round
  simp only [settle_remember, promotions_remember]
  rfl

end Run

namespace Store

variable (s : Store) (g : AtomKey → SortedSet ConstraintId → SortedSet ConstraintId)

/-! ### Rounds until one is accepted -/

theorem solution_remember (seeds : List AtomKey) : (s.remember g).solution seeds = s.solution seeds := by
  have haccept : ∀ (fuel : Nat) (blocked : List Formula) (iterations restarts : Nat),
      (s.remember g).accept seeds fuel blocked iterations restarts =
        s.accept seeds fuel blocked iterations restarts := by
    intro fuel
    induction fuel with
    | zero => intro blocked iterations restarts; simp only [accept, Run.round_remember]
    | succ fuel ih => intro blocked iterations restarts; simp only [accept, Run.round_remember, ih]
  exact haccept _ _ _ _

/-- Solving answers the same, and leaves the records as they are. -/
theorem solve_remember : (s.remember g).solve = (s.solve.1, s.solve.2.remember g) := by
  unfold solve
  rw [keys_remember, solution_remember]
  rfl

end Store

end PointerKinds
