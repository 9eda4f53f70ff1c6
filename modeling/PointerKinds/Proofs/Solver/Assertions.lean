/-
No assignment is one that the solver would have to stop at.

An assignment is only lawful if it takes its atom up, to a kind that the filter lets pass.
The solver never tests this when it assigns.  Here it does: the guarded solver is the same
program with a test in front of every assignment, and a failed test ends everything, in
whichever round it happens.  That the guarded solver has a result, and the same one, says
that no test fails anywhere, in rejected rounds no less than in the accepted one.

A raise tests its request against the kind the atom has at that moment, and is granted
nothing that the filter bars, so its assignment is lawful as it stands.  Promotions are
decided before the first of them is made.  But they are at different atoms, so each atom
still is a plain array when its turn comes, and an atom whose filter bars a null-terminated
array stands against the promotion of its own component.
-/
import PointerKinds.Store.Sanity
import PointerKinds.Proofs.Solver.Replay
import PointerKinds.Proofs.Solver.Edits

namespace PointerKinds

/-! ### The guarded solver -/

/-- An assignment to stop at. -/
inductive Panic where
  /-- The atom would not move up. -/
  | notUpward (m : Move)
  /-- The filter of the atom bars the kind. -/
  | barred (m : Move)
deriving DecidableEq

namespace Run

variable (s : Store)

/-- Moves an atom, if that takes it up to a kind that its filter permits. -/
def guardedAssign (run : Run) (key : AtomKey) (k : Kind) (cause : Option ConstraintId) : Except Panic Run :=
  if ¬ run.value key < k then .error (.notUpward ⟨key, run.value key, k⟩)
  else if s.forbids key k then .error (.barred ⟨key, run.value key, k⟩)
  else .ok (run.assign key k cause)

/-- Lets an atom rise toward a kind, as far as its filter permits. -/
def guardedRaise (cause : ConstraintId) (run : Run) (key : AtomKey) (requested : Kind) :
    Except Panic (Option AtomKey × Run) :=
  if requested ≤ run.value key then .ok (none, run)
  else
    match s.atoms.get? key with
    | none => .ok (none, run)
    | some a =>
      let granted := a.grant (run.value key) requested
      let run := if granted = some requested then run
        else run.refuse ⟨cause, some key⟩ ⟨requested, granted⟩
      match granted with
      | some k => (run.guardedAssign s key k (some cause)).map fun run => (some key, run.count 1)
      | none => .ok (none, run)

/-- Does what a constraint demands now. -/
def guardedApply (cause : ConstraintId) (run : Run) : Formula → Except Panic (Option AtomKey × Run)
  | .eq (.atom key) (.kind k) | .eq (.kind k) (.atom key) => run.guardedRaise s cause key k
  | .eq (.atom a) (.atom b) =>
    if run.value a < run.value b then run.guardedRaise s cause a (run.value b)
    else run.guardedRaise s cause b (run.value a)
  | .eq (.kind _) (.kind _) => .ok (none, run)
  | .not _ => .ok (none, run)
  | .implies premise conclusion =>
    if run.isLive (.implies premise conclusion) premise then run.guardedApply cause conclusion
    else .ok (none, run)

/-- Applies one constraint; an atom that moved joins the queue. -/
def guardedStep (state : Run × List AtomKey) (c : ConstraintId × Formula) : Except Panic (Run × List AtomKey) :=
  (state.1.guardedApply s c.1 c.2).map fun
    | (some key, run) => (run, enqueue state.2 key)
    | (none, run) => (run, state.2)

/-- Applies every constraint in force at an atom taken off the queue. -/
def guardedVisit (run : Run) (key : AtomKey) (queue : List AtomKey) : Except Panic (Run × List AtomKey) :=
  (s.formulasAt key).foldlM (guardedStep s) ({ run with iterations := run.iterations + 1 }, queue)

/-- Visits the atoms of a queue until it is empty. -/
def guardedDrain : Nat → Run → List AtomKey → Except Panic Run
  | _, run, [] => .ok run
  | 0, run, _ => .ok run
  | fuel + 1, run, key :: queue => do
    let (run, queue) ← run.guardedVisit s key queue
    guardedDrain fuel run queue

/-- Visits the given atoms and all that move in consequence. -/
def guardedPropagate (run : Run) (seeds : List AtomKey) : Except Panic Run :=
  let queue := seeds.foldl enqueue []
  run.guardedDrain s (queue.length + 3 * s.atoms.size + 1) queue

/-- Commits the run to an implication and does what its conclusion demands. -/
def guardedFire (run : Run) (id : ConstraintId) (f : Formula) : Except Panic Run :=
  let run := { run with fired := run.fired ++ [f] }
  match f with
  | .implies _ conclusion => do
    match ← run.guardedApply s id conclusion with
    | (some key, run) => run.guardedPropagate s [key]
    | (none, run) => return run
  | _ => .ok run

/-- Fires waiting implications until none waits. -/
def guardedFireAll (blocked : List Formula) : Nat → Run → Except Panic Run
  | 0, run => .ok run
  | fuel + 1, run =>
    match run.waiting? s blocked with
    | some (id, f) => do guardedFireAll blocked fuel (← run.guardedFire s id f)
    | none => .ok run

/-- Visits the given atoms, then fires what waits. -/
def guardedSettle (blocked : List Formula) (run : Run) (seeds : List AtomKey) : Except Panic Run := do
  guardedFireAll s blocked s.active.length (← run.guardedPropagate s seeds)

/-- Promotes atoms. -/
def guardedPromote (run : Run) (keys : List AtomKey) : Except Panic Run := do
  let run ← keys.foldlM (fun run key => run.guardedAssign s key .ntArr none) run
  return { run.count keys.length with promoted := run.promoted + keys.length }

/-- A whole round from the store's own kinds. -/
def guardedRound (seeds : List AtomKey) (blocked : List Formula) : Except Panic Run := do
  let run ← (Run.start s).guardedSettle s blocked seeds
  let chosen := run.promotions s
  let run ← run.guardedPromote s chosen
  run.guardedSettle s blocked chosen

end Run

namespace Store

variable (s : Store)

/-- Runs rounds until one is accepted. -/
def guardedAccept (seeds : List AtomKey) : Nat → List Formula → Nat → Nat → Except Panic Solution
  | 0, blocked, iterations, restarts => do
    let run ← Run.guardedRound s seeds blocked
    return ⟨run, blocked, iterations + run.iterations, restarts⟩
  | fuel + 1, blocked, iterations, restarts => do
    let run ← Run.guardedRound s seeds blocked
    if run.stale.isEmpty then return ⟨run, blocked, iterations + run.iterations, restarts⟩
    else guardedAccept seeds fuel (blocked ++ run.stale) (iterations + run.iterations) (restarts + 1)

/-- The solution found from the store's own kinds, visiting the given atoms first. -/
def guardedSolution (seeds : List AtomKey) : Except Panic Solution := s.guardedAccept seeds s.active.length [] 0 0

/-- Solves every constraint in force from the kinds the store has. -/
def guardedSolve : Except Panic (Outcome × Store) := do
  let sol ← s.guardedSolution s.atoms.keys
  return (⟨sol.stats, sol.run.conflicts s⟩, s.commit sol.run)

/-- Erases what holds an atom unchecked and solves a region around it again. -/
def guardedMakeNonWild (key : AtomKey) (region : List AtomKey) : Except Panic (List AtomKey × Store) :=
  if s.value key = .wild then do
    let s := (s.wildForcing key).foldl erase s
    let region := (SortedSet.ofList (key :: region.filter s.atoms.contains)).toList
    let lost := region.filter fun k => s.value k = .wild
    let s := s.lower region
    let s := s.commit (← s.guardedSolution region).run
    return (lost.filter fun k => s.value k ≠ .wild, s)
  else .ok ([], s)

end Store

/-! ### Lawful moves -/

/-- A move up, to a kind that the filter of its atom lets pass. -/
def Move.Lawful (s : Store) (m : Move) : Prop := m.before < m.after ∧ s.Permits m.key m.after

namespace Store

variable {s t : Store} {key : AtomKey} {k : Kind}

theorem forbids_eq_false (h : s.Permits key k) : s.forbids key k = false := by
  obtain ⟨a, ha, hk⟩ := h
  unfold forbids
  rw [ha]
  simp [hk]

end Store

namespace Run

variable {s : Store} {run : Run} {key : AtomKey} {k : Kind} {blocked : List Formula}

/-- Every move made so far is lawful. -/
def Lawful (s : Store) (run : Run) : Prop := ∀ m ∈ run.moves, m.Lawful s

theorem Lawful.assign (h : run.Lawful s) (hlt : run.value key < k) (hp : s.Permits key k)
    (cause : Option ConstraintId) : (run.assign key k cause).Lawful s := by
  intro m hm
  rcases List.mem_append.1 hm with hm | hm
  · exact h m hm
  · rw [List.mem_singleton.1 hm]
    exact ⟨hlt, hp⟩

/-- Whatever a phase moves, it moves lawfully. -/
theorem lasting_lawful (s : Store) : Lasting s (Lawful s) where
  visit _ h := h
  commit _ _ h := h
  raise run id key k h := by
    rcases raise_cases s id run key k with ⟨e, -⟩ | ⟨a, -, -, -, e⟩ | ⟨a, g, run', ha, hg, hlt, hr, e⟩
    · rwa [e]
    · rw [e]
      exact h
    · rw [e]
      have hp : s.Permits key g := ⟨a, ha, Atom.permits_floor? hg⟩
      rcases hr with ⟨-, rfl⟩ | ⟨-, rfl⟩
      · exact h.assign hlt hp (some id)
      · have hrefuse : (run.refuse ⟨id, some key⟩ ⟨k, some g⟩).Lawful s := h
        exact hrefuse.assign hlt hp (some id)

/-! ### Promotions -/

theorem self_mem_component (h : key ∈ run.arrAtoms) : key ∈ run.component s key :=
  (explores_component s h).subset (List.mem_singleton_self key)

theorem permits_of_not_blocksPromotion (h : blocksPromotion s key = false) : s.Permits key .ntArr := by
  unfold blocksPromotion at h
  cases ha : s.atoms.get? key with
  | none =>
      rw [ha] at h
      exact nomatch h
  | some a =>
      rw [ha] at h
      simp only [Bool.or_eq_false_iff, Bool.not_eq_false'] at h
      exact ⟨a, ha, h.1.2⟩

/-- An atom is in its own component, so its filter has a say in its promotion. -/
theorem permits_of_mem_promotions (h : key ∈ run.promotions s) : s.Permits key .ntArr := by
  obtain ⟨harr, -, hfree⟩ := mem_promotions h
  exact permits_of_not_blocksPromotion
    (Bool.eq_false_iff.2 (List.any_eq_false.1 hfree key (self_mem_component (mem_arrAtoms.2 harr))))

/-- Promotions are lawful, each where its turn comes. -/
theorem Lawful.promote (h : run.Lawful s) : (run.promote (run.promotions s)).Lawful s :=
  promote_keeps (P := Lawful s) (fun _ _ _ hr => hr) (fun _ _ hkey harr hr =>
    hr.assign (harr ▸ by decide) (permits_of_mem_promotions hkey) none) h

/-- Every move of every round is lawful, whatever is visited and whatever may not be fired. -/
theorem lawful_round (s : Store) (seeds : List AtomKey) (blocked : List Formula) :
    (round s seeds blocked).Lawful s :=
  round_lasts (lasting_lawful s) (fun _ h => h.promote) seeds blocked fun _ hm => absurd hm List.not_mem_nil

/-! ### No test fails -/

theorem guardedAssign_eq (hlt : run.value key < k) (hp : s.Permits key k) (cause : Option ConstraintId) :
    run.guardedAssign s key k cause = .ok (run.assign key k cause) := by
  unfold guardedAssign
  rw [if_neg (not_not.2 hlt), Store.forbids_eq_false hp]
  rfl

/-- A raise only assigns what it was granted. -/
theorem guardedRaise_eq (s : Store) (cause : ConstraintId) (run : Run) (key : AtomKey) (requested : Kind) :
    run.guardedRaise s cause key requested = .ok (run.raise s cause key requested) := by
  unfold guardedRaise raise
  by_cases hle : requested ≤ run.value key
  · rw [if_pos hle, if_pos hle]
  rw [if_neg hle, if_neg hle]
  cases ha : s.atoms.get? key with
  | none => rfl
  | some a =>
      have hgrant := Atom.grant_eq (a := a) (not_le.1 hle)
      cases hg : a.grant (run.value key) requested with
      | none => simp only [hg]
      | some g =>
          rw [hgrant] at hg
          obtain ⟨hfloor, hlt⟩ := Option.filter_eq_some_iff.1 hg
          have hassign : ∀ r : Run, r.value = run.value →
              r.guardedAssign s key g (some cause) = .ok (r.assign key g (some cause)) := fun r hr =>
            guardedAssign_eq (by rw [hr]; simpa using hlt) ⟨a, ha, Atom.permits_floor? hfloor⟩ _
          rw [← hgrant] at hg
          simp only [hg]
          split
          · rw [hassign run rfl]
            rfl
          · rw [hassign (run.refuse _ _) rfl]
            rfl

theorem guardedApply_eq (s : Store) (cause : ConstraintId) (run : Run) (f : Formula) :
    run.guardedApply s cause f = .ok (run.apply s cause f) := by
  induction f with
  | eq l r =>
      cases l <;> cases r <;> simp only [guardedApply, apply, guardedRaise_eq]
      split <;> rfl
  | not body => rfl
  | implies p c _ ih =>
      simp only [guardedApply, apply, ih]
      split <;> rfl

theorem guardedStep_eq (s : Store) (state : Run × List AtomKey) (c : ConstraintId × Formula) :
    guardedStep s state c = .ok (step s state c) := by
  unfold guardedStep step
  rw [guardedApply_eq]
  generalize state.1.apply s c.1 c.2 = r
  obtain ⟨_ | moved, run⟩ := r <;> rfl

theorem guardedVisit_eq (s : Store) (run : Run) (key : AtomKey) (queue : List AtomKey) :
    run.guardedVisit s key queue = .ok (run.visit s key queue) := by
  unfold guardedVisit visit
  rw [show guardedStep s = fun state c => pure (step s state c) from funext₂ (guardedStep_eq s)]
  exact List.foldlM_pure

theorem guardedDrain_eq (s : Store) (fuel : Nat) (run : Run) (queue : List AtomKey) :
    run.guardedDrain s fuel queue = .ok (run.drain s fuel queue) := by
  induction fuel generalizing run queue with
  | zero => cases queue <;> rfl
  | succ fuel ih =>
      cases queue with
      | nil => rfl
      | cons key rest =>
          simp only [guardedDrain, drain, guardedVisit_eq]
          exact ih _ _

theorem guardedPropagate_eq (s : Store) (run : Run) (seeds : List AtomKey) :
    run.guardedPropagate s seeds = .ok (run.propagate s seeds) :=
  guardedDrain_eq ..

theorem guardedFire_eq (s : Store) (run : Run) (id : ConstraintId) (f : Formula) :
    run.guardedFire s id f = .ok (run.fire s id f) := by
  cases f with
  | eq | not => rfl
  | implies p c =>
      simp only [guardedFire, fire, guardedApply_eq]
      generalize Run.apply s id { run with fired := run.fired ++ [.implies p c] } c = r
      obtain ⟨_ | moved, after⟩ := r
      · rfl
      · exact guardedPropagate_eq ..

theorem guardedFireAll_eq (s : Store) (blocked : List Formula) (fuel : Nat) (run : Run) :
    guardedFireAll s blocked fuel run = .ok (fireAll s blocked fuel run) := by
  induction fuel generalizing run with
  | zero => rfl
  | succ fuel ih =>
      simp only [guardedFireAll, fireAll]
      cases run.waiting? s blocked with
      | none => rfl
      | some c =>
          simp only [guardedFire_eq]
          exact ih _

theorem guardedSettle_eq (s : Store) (blocked : List Formula) (run : Run) (seeds : List AtomKey) :
    run.guardedSettle s blocked seeds = .ok (run.settle s blocked seeds) := by
  unfold guardedSettle settle
  rw [guardedPropagate_eq]
  exact guardedFireAll_eq ..

/-- What is to be promoted can be promoted, one after the other. -/
theorem guardedPromote_eq (s : Store) (run : Run) :
    run.guardedPromote s (run.promotions s) = .ok (run.promote (run.promotions s)) := by
  have hfold : ∀ (keys : List AtomKey) (r : Run), keys.Nodup →
      (∀ key ∈ keys, r.value key = .arr ∧ s.Permits key .ntArr) →
      keys.foldlM (fun r key => r.guardedAssign s key .ntArr none) r =
        .ok (keys.foldl (fun r key => r.assign key .ntArr none) r) := by
    intro keys
    induction keys with
    | nil => exact fun _ _ _ => rfl
    | cons key rest ih =>
        intro r hnodup hkeys
        obtain ⟨hfresh, hnodup⟩ := List.nodup_cons.1 hnodup
        obtain ⟨harr, hpermits⟩ := hkeys key List.mem_cons_self
        rw [List.foldlM_cons, guardedAssign_eq (harr ▸ by decide) hpermits]
        refine ih _ hnodup fun x hx => ?_
        have hne : x ≠ key := by
          rintro rfl
          exact hfresh hx
        rw [value_assign, if_neg hne]
        exact hkeys x (List.mem_cons_of_mem key hx)
  unfold guardedPromote promote
  rw [hfold _ run (nodup_promotions s run) fun key hkey =>
    ⟨(mem_promotions hkey).1, permits_of_mem_promotions hkey⟩]
  rfl

theorem guardedRound_eq (s : Store) (seeds : List AtomKey) (blocked : List Formula) :
    guardedRound s seeds blocked = .ok (round s seeds blocked) := by
  have hpromote : ∀ run : Run, (do
      let after ← run.guardedPromote s (run.promotions s)
      after.guardedSettle s blocked (run.promotions s)) =
        .ok ((run.promote (run.promotions s)).settle s blocked (run.promotions s)) := fun run => by
    rw [guardedPromote_eq]
    exact guardedSettle_eq ..
  unfold guardedRound
  rw [guardedSettle_eq]
  exact hpromote _

end Run

namespace Store

variable {s : Store} {key x : AtomKey}

theorem guardedAccept_eq (s : Store) (seeds : List AtomKey) (fuel : Nat) (blocked : List Formula)
    (iterations restarts : Nat) : s.guardedAccept seeds fuel blocked iterations restarts =
      .ok (s.accept seeds fuel blocked iterations restarts) := by
  induction fuel generalizing blocked iterations restarts with
  | zero =>
      simp only [guardedAccept, Run.guardedRound_eq]
      rfl
  | succ fuel ih =>
      simp only [guardedAccept, accept, Run.guardedRound_eq]
      show (if (Run.round s seeds blocked).stale.isEmpty then _ else _) = _
      split
      · rfl
      · exact ih _ _ _

theorem guardedSolution_eq (s : Store) (seeds : List AtomKey) : s.guardedSolution seeds = .ok (s.solution seeds) :=
  guardedAccept_eq ..

theorem guardedSolve_eq (s : Store) : s.guardedSolve = .ok s.solve := by
  unfold guardedSolve
  rw [guardedSolution_eq]
  rfl

theorem guardedMakeNonWild_eq (s : Store) (key : AtomKey) (region : List AtomKey) :
    s.guardedMakeNonWild key region = .ok (s.makeNonWild key region) := by
  unfold guardedMakeNonWild makeNonWild
  split
  · simp only [guardedSolution_eq]
    rfl
  · rfl

/-! ### Where an atom ends up -/

/-- An atom ends where it started, or where some move took it. -/
theorem getD_of_replay? {E E' : SortedMap AtomKey Kind} {l : List Move} (h : replay? E l = some E') :
    E'.getD x .ptr = E.getD x .ptr ∨ ∃ m ∈ l, m.key = x ∧ E'.getD x .ptr = m.after := by
  induction l generalizing E with
  | nil => exact .inl (by rw [Option.some.inj h])
  | cons m rest ih =>
      obtain ⟨E₁, hfirst, hrest⟩ := Option.bind_eq_some_iff.1 h
      rcases ih hrest with he | ⟨m', hm', hx⟩
      · unfold Move.replay? at hfirst
        split at hfirst
        · obtain rfl := Option.some.inj hfirst
          unfold SortedMap.getD at he ⊢
          rw [SortedMap.get?_insert] at he
          by_cases hx : x = m.key
          · rw [if_pos hx] at he
            exact .inr ⟨m, List.mem_cons_self, hx.symm, he⟩
          · rw [if_neg hx] at he
            exact .inl he
        · cases hfirst
      · exact .inr ⟨m', List.mem_cons_of_mem m hm', hx⟩

/-- After a solution is taken over, an atom is where it was or where its filter permits it
to be. -/
theorem value_commit_solution (s : Store) (seeds : List AtomKey) (x : AtomKey) :
    (s.commit (s.solution seeds).run).value x = s.value x ∨
      s.Permits x ((s.commit (s.solution seeds).run).value x) := by
  rw [solution_eq_round]
  rcases getD_of_replay? (x := x) (Run.replays_round s seeds (s.solution seeds).blocked) with he | ⟨m, hm, hx, he⟩
  · exact .inl he
  · have hlawful := (Run.lawful_round s seeds (s.solution seeds).blocked m hm).2
    rw [hx, ← he] at hlawful
    exact .inr hlawful

/-- After making an atom checked again, an atom that its filter bars from where it is was not
moved, or was put back to a checked pointer. -/
theorem value_makeNonWild_cases (s : Store) (key : AtomKey) (region : List AtomKey) (x : AtomKey) :
    (s.makeNonWild key region).2.value x = s.value x ∨ (s.makeNonWild key region).2.value x = .ptr ∨
      s.Permits x ((s.makeNonWild key region).2.value x) := by
  by_cases hkey : s.value key = .wild
  · rw [makeNonWild_of_wild hkey]
    rcases value_commit_solution (s.released key (s.regionAround key region)) (s.regionAround key region) x with
      he | hp
    · rw [he, value_released]
      split
      · exact .inr (.inl rfl)
      · exact .inl rfl
    · exact .inr (.inr (hp.congr (sameFilters_released s key _).symm))
  · rw [makeNonWild_of_ne hkey]
    exact .inl rfl

theorem not_permits_of_forbids {k : Kind} (h : s.forbids x k = true) : ¬ s.Permits x k := fun hp => by
  rw [forbids_eq_false hp] at h
  exact nomatch h

/-- **Filters are respected, and no assignment is one to stop at.**  Whatever the store and the
kinds it starts from, the solver that tests every assignment it makes, in every round, gives
the result of the one that does not; so does making an atom checked again.  Neither changes a
filter.  Every move of every round, whatever is visited first and whatever may not be fired,
takes its atom up, to a kind that its filter lets pass.  So an atom that ends at a kind its
filter bars had that kind before; after a solve from checked pointers it is a checked pointer,
and after an edit it was not moved or was put back to one. -/
theorem filters_respected (s : Store) :
    (s.guardedSolve = .ok s.solve ∧ s.SameFilters s.solve.2 ∧
      (∀ seeds blocked, ∀ m ∈ (Run.round s seeds blocked).moves,
        m.before < m.after ∧ s.Permits m.key m.after) ∧
      (∀ x, s.forbids x (s.solve.2.value x) = true → s.solve.2.value x = s.value x) ∧
      ((∀ x, s.value x = .ptr) → ∀ x, s.forbids x (s.solve.2.value x) = true → s.solve.2.value x = .ptr)) ∧
    ∀ key region, s.guardedMakeNonWild key region = .ok (s.makeNonWild key region) ∧
      s.SameFilters (s.makeNonWild key region).2 ∧
      (∀ seeds blocked, ∀ m ∈ (Run.round (s.released key (s.regionAround key region)) seeds blocked).moves,
        m.before < m.after ∧ s.Permits m.key m.after) ∧
      ∀ x, s.forbids x ((s.makeNonWild key region).2.value x) = true →
        (s.makeNonWild key region).2.value x = s.value x ∨ (s.makeNonWild key region).2.value x = .ptr := by
  have hstays : ∀ x, s.forbids x (s.solve.2.value x) = true → s.solve.2.value x = s.value x := fun x hx =>
    (value_commit_solution s s.atoms.keys x).resolve_right (not_permits_of_forbids hx)
  refine ⟨⟨guardedSolve_eq s, fun _ => rfl, Run.lawful_round s, hstays, fun hptr x hx => ?_⟩,
    fun key region => ⟨guardedMakeNonWild_eq s key region, sameFilters_makeNonWild s key region,
      fun seeds blocked m hm => ?_, fun x hx => ?_⟩⟩
  · rw [hstays x hx, hptr x]
  · obtain ⟨hlt, hp⟩ := Run.lawful_round _ seeds blocked m hm
    exact ⟨hlt, hp.congr (sameFilters_released s key _).symm⟩
  · rcases value_makeNonWild_cases s key region x with he | he | hp
    · exact .inl he
    · exact .inr he
    · exact absurd hp (not_permits_of_forbids hx)

/-! ### A concrete store -/

/-- An unchecked atom may be a null-terminated array at most; if it is one, another that would
rather be null-terminated is an array; and a third may be anything but a checked pointer. -/
def banded : Store :=
  let s := (({} : Store).addEq (.atom 0) (.kind .wild)).2
  let s := (s.createEq (.atom 0) (.kind .ntArr)).2
  let s := (s.createEq (.atom 1) (.kind .arr)).2
  let s := ((s.createImplies? 1 2).getD (0, s)).2
  let s := ((s.add 3).ensureAtom 2).setSoft 1 { ifArrThenNtArr := true }
  (s.forbid 0 .wild).forbid 2 .ptr

/-- The first is held back, the second is promoted, and the third stays where it may not be. -/
theorem banded_respected : (∀ x, banded.reset.value x = .ptr) ∧
    banded.reset.solve.2.env.entries = [(0, .ntArr), (1, .ntArr), (2, .ptr)] ∧
    banded.reset.guardedSolve = .ok banded.reset.solve ∧ banded.reset.forbids 2 .ptr = true ∧
    ∀ x, banded.reset.forbids x (banded.reset.solve.2.value x) = true →
      banded.reset.solve.2.value x = .ptr := by
  obtain ⟨⟨hguarded, -, -, -, hptr⟩, -⟩ := filters_respected banded.reset
  exact ⟨value_reset banded, by decide, hguarded, by decide, hptr (value_reset banded)⟩

end Store

end PointerKinds
