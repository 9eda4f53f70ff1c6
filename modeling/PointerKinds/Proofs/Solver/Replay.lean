/-
Rejected rounds leave nothing behind but what they block.

Every round starts from the kinds of the store, and only the accepted one is committed.  So
solving comes to the same as one round from the start that is told beforehand which
implications not to fire: the kinds, the remembered constraints, the report, the counts of
assignments and promotions, and the record of moves are all those of that round.

The record can be replayed.  Each move starts where its atom is and takes it up, and
following all of them from the starting kinds leads to the final ones.

A solver need not run rounds apart from each other.  It may keep one state, go on in it from
round to round, and roll it back before each: the kinds and the remembered constraints to
those of the start, the record of moves to its former length, refusals and firings to none,
and the counts of assignments and promotions to zero.  What a round does depends neither on
how many visits were counted before it nor on the record before it, so this comes to the same.
-/
import PointerKinds.Proofs.Solver.Loops

namespace PointerKinds

/-! ### Replaying moves -/

/-- Makes a move, if it starts where its atom is and goes up. -/
def Move.replay? (env : SortedMap AtomKey Kind) (m : Move) : Option (SortedMap AtomKey Kind) :=
  if env.getD m.key .ptr = m.before ∧ m.before < m.after then some (env.insert m.key m.after) else none

/-- Makes moves in order, as long as each can be made. -/
def replay? (env : SortedMap AtomKey Kind) : List Move → Option (SortedMap AtomKey Kind)
  | [] => some env
  | m :: rest => (m.replay? env).bind (replay? · rest)

theorem replay?_append (env : SortedMap AtomKey Kind) (l l' : List Move) :
    replay? env (l ++ l') = (replay? env l).bind (replay? · l') := by
  induction l generalizing env with
  | nil => rfl
  | cons m rest ih =>
      simp only [List.cons_append, replay?, Option.bind_assoc]
      exact Option.bind_congr fun env' _ => ih env'

namespace Run

variable {s : Store} {run : Run} {E : SortedMap AtomKey Kind}

/-- The moves of a run lead from some kinds to its own. -/
def Replays (E : SortedMap AtomKey Kind) (run : Run) : Prop := replay? E run.moves = some run.env

theorem Replays.assign (h : run.Replays E) {key : AtomKey} {k : Kind} (hlt : run.value key < k)
    (cause : Option ConstraintId) : (run.assign key k cause).Replays E := by
  have hlast : replay? run.env [⟨key, run.value key, k⟩] = some (run.env.insert key k) := by
    simp only [replay?, Move.replay?]
    rw [if_pos ⟨rfl, hlt⟩]
    rfl
  show replay? E (run.moves ++ [⟨key, run.value key, k⟩]) = some (run.env.insert key k)
  rw [replay?_append, h, Option.bind_some, hlast]

/-- A phase records what it does. -/
theorem lasting_replays (s : Store) (E : SortedMap AtomKey Kind) : Lasting s (Replays E) where
  visit _ h := h
  commit _ _ h := h
  raise run id key k h := by
    rcases raise_cases s id run key k with ⟨e, -⟩ | ⟨a, -, -, -, e⟩ | ⟨a, g, run', -, -, hlt, hr, e⟩
    · rwa [e]
    · rw [e]
      exact h
    · rw [e]
      rcases hr with ⟨-, rfl⟩ | ⟨-, rfl⟩
      · exact h.assign hlt (some id)
      · have hrefuse : (run.refuse ⟨id, some key⟩ ⟨k, some g⟩).Replays E := h
        exact hrefuse.assign hlt (some id)

/-- What survives the promotion of one plain array survives promotions: they are at different
atoms, so each of them still is a plain array when its turn comes. -/
theorem promote_keeps {P : Run → Prop} (hcount : ∀ (r : Run) (n m : Nat), P r → P { r.count n with promoted := m })
    (hassign : ∀ (r : Run) (key : AtomKey), key ∈ run.promotions s → r.value key = .arr → P r →
      P (r.assign key .ntArr none)) (h : P run) : P (run.promote (run.promotions s)) := by
  have hfold : ∀ (keys : List AtomKey) (r : Run), keys.Nodup → keys ⊆ run.promotions s →
      (∀ key ∈ keys, r.value key = .arr) → P r →
      P (keys.foldl (fun r key => r.assign key .ntArr none) r) := by
    intro keys
    induction keys with
    | nil => exact fun _ _ _ _ hr => hr
    | cons key rest ih =>
        intro r hnodup hsub harr hr
        obtain ⟨hfresh, hnodup⟩ := List.nodup_cons.1 hnodup
        obtain ⟨hkey, hsub⟩ := List.cons_subset.1 hsub
        refine ih _ hnodup hsub (fun x hx => ?_) (hassign r key hkey (harr key List.mem_cons_self) hr)
        have hne : x ≠ key := by
          rintro rfl
          exact hfresh hx
        rw [value_assign, if_neg hne]
        exact harr x (List.mem_cons_of_mem key hx)
  exact hcount _ _ _ (hfold _ run (nodup_promotions s run) (List.Subset.refl _)
    (fun key hkey => (mem_promotions hkey).1) h)

/-- Promotions are recorded too. -/
theorem Replays.promote (h : run.Replays E) : (run.promote (run.promotions s)).Replays E :=
  promote_keeps (P := Replays E) (fun _ _ _ hr => hr)
    (fun _ _ _ harr hr => hr.assign (harr ▸ by decide) none) h

/-- The moves of a round lead from the kinds of the store to those of the round. -/
theorem replays_round (s : Store) (seeds : List AtomKey) (blocked : List Formula) :
    (round s seeds blocked).Replays s.env :=
  round_lasts (lasting_replays s s.env) (fun _ h => h.promote) seeds blocked rfl

end Run

namespace Store

variable {s : Store} {seeds : List AtomKey}

/-! ### The accepted round -/

/-- What the accepted round may not fire, some rejected round fired and left stale. -/
theorem Accepts.blocked_inForce {blocked : List Formula} {iterations restarts : Nat} {sol : Solution}
    (h : s.Accepts seeds blocked iterations restarts sol) :
    sol.run.stale = [] ∧ ∀ f ∈ sol.blocked, f ∈ blocked ∨ s.InForce f ∧ f.isDeferred = true := by
  induction h with
  | accept _ hstale => exact ⟨hstale, fun f hf => .inl hf⟩
  | restart hround _ _ ih =>
      obtain ⟨hstale, hblocked⟩ := ih
      refine ⟨hstale, fun f hf => ?_⟩
      rcases hblocked f hf with hf | hf
      · refine (List.mem_append.1 hf).imp_right fun hf => ?_
        obtain ⟨hforce, hdeferred, -⟩ := hround.mem_fired (Run.mem_stale.1 hf).1
        exact ⟨hforce, hdeferred⟩
      · exact .inr hf

end Store

namespace Run

variable {s : Store} {run : Run} {blocked : List Formula} {past : List Move} {n : Nat}

/-! ### The record and the count before a round -/

/-- The same run after other moves and other visits. -/
def after (past : List Move) (n : Nat) (run : Run) : Run :=
  { run with moves := past ++ run.moves, iterations := n + run.iterations }

theorem assign_after (key : AtomKey) (k : Kind) (cause : Option ConstraintId) :
    (run.after past n).assign key k cause = (run.assign key k cause).after past n := by
  unfold after assign
  rw [List.append_assoc]
  rfl

theorem raise_after (id : ConstraintId) (key : AtomKey) (k : Kind) :
    (run.after past n).raise s id key k =
      ((run.raise s id key k).1, (run.raise s id key k).2.after past n) := by
  have hvalue : (run.after past n).value = run.value := rfl
  unfold raise
  rw [hvalue]
  split
  · rfl
  · cases s.atoms.get? key with
    | none => rfl
    | some a =>
        cases hgrant : a.grant (run.value key) k with
        | none => simp only [hgrant, reduceCtorEq, if_false]; rfl
        | some g =>
            have hassign : ∀ run : Run, ((run.after past n).assign key g (some id)).count 1 =
                ((run.assign key g (some id)).count 1).after past n := fun _ => congrArg (count · 1) (assign_after ..)
            simp only [hgrant]
            split
            · rw [hassign]
            · exact congrArg (some key, ·) (hassign (run.refuse _ _))

theorem apply_after (id : ConstraintId) (f : Formula) :
    (run.after past n).apply s id f = ((run.apply s id f).1, (run.apply s id f).2.after past n) := by
  have hvalue : (run.after past n).value = run.value := rfl
  have hlive : ∀ f p, (run.after past n).isLive f p = run.isLive f p := fun _ _ => rfl
  induction f with
  | eq l r =>
      cases l <;> cases r <;> simp only [apply, hvalue]
      case atom.atom => split <;> exact raise_after ..
      all_goals exact raise_after ..
  | not body => rfl
  | implies p c _ ih =>
      simp only [apply, hlive]
      split
      · exact ih
      · rfl

theorem step_after (queue : List AtomKey) (c : ConstraintId × Formula) :
    Run.step s (run.after past n, queue) c =
      ((Run.step s (run, queue) c).1.after past n, (Run.step s (run, queue) c).2) := by
  simp only [Run.step, apply_after]
  generalize run.apply s c.1 c.2 = r
  obtain ⟨_ | moved, run'⟩ := r <;> rfl

theorem visit_after (key : AtomKey) (queue : List AtomKey) :
    (run.after past n).visit s key queue =
      ((run.visit s key queue).1.after past n, (run.visit s key queue).2) := by
  suffices h : ∀ (l : List (ConstraintId × Formula)) (state : Run × List AtomKey),
      l.foldl (Run.step s) (state.1.after past n, state.2) =
        ((l.foldl (Run.step s) state).1.after past n, (l.foldl (Run.step s) state).2) from
    h (s.formulasAt key) ({ run with iterations := run.iterations + 1 }, queue)
  intro l
  induction l with
  | nil => exact fun _ => rfl
  | cons c rest ih =>
      intro state
      rw [List.foldl_cons, List.foldl_cons, step_after, ih]

theorem drain_after (fuel : Nat) (queue : List AtomKey) :
    (run.after past n).drain s fuel queue = (run.drain s fuel queue).after past n := by
  induction fuel generalizing run queue with
  | zero => cases queue <;> rfl
  | succ fuel ih =>
      cases queue with
      | nil => rfl
      | cons key rest =>
          simp only [drain, visit_after]
          exact ih _

theorem fire_after (id : ConstraintId) (f : Formula) :
    (run.after past n).fire s id f = (run.fire s id f).after past n := by
  cases f with
  | eq | not => rfl
  | implies p c =>
      have hcommit : (run.after past n).commitTo (.implies p c) = (run.commitTo (.implies p c)).after past n := rfl
      rw [fire_implies, fire_implies, hcommit, apply_after]
      generalize (run.commitTo (.implies p c)).apply s id c = r
      obtain ⟨_ | moved, run'⟩ := r
      · rfl
      · exact drain_after _ _

theorem fireAll_after (fuel : Nat) :
    fireAll s blocked fuel (run.after past n) = (fireAll s blocked fuel run).after past n := by
  have hwaiting : ∀ run : Run, (run.after past n).waiting? s blocked = run.waiting? s blocked := fun _ => rfl
  induction fuel generalizing run with
  | zero => rfl
  | succ fuel ih =>
      simp only [fireAll, hwaiting]
      cases run.waiting? s blocked with
      | none => rfl
      | some c =>
          simp only [fire_after]
          exact ih

theorem settle_after (seeds : List AtomKey) :
    (run.after past n).settle s blocked seeds = (run.settle s blocked seeds).after past n := by
  unfold settle propagate
  rw [drain_after, fireAll_after]

theorem promotions_after : (run.after past n).promotions s = run.promotions s := by
  have harr : (run.after past n).arrAtoms = run.arrAtoms := rfl
  have hexplore : ∀ (fuel : Nat) (met stack : List AtomKey),
      (run.after past n).explore s fuel met stack = run.explore s fuel met stack := by
    intro fuel
    induction fuel with
    | zero => intro met stack; cases stack <;> rfl
    | succ fuel ih =>
        intro met stack
        cases stack with
        | nil => rfl
        | cons key rest => exact ih _ _
  unfold promotions component
  simp only [harr, hexplore]

theorem promote_after (keys : List AtomKey) :
    (run.after past n).promote keys = (run.promote keys).after past n := by
  have hfold : ∀ run : Run, keys.foldl (fun run key => run.assign key .ntArr none) (run.after past n) =
      (keys.foldl (fun run key => run.assign key .ntArr none) run).after past n := by
    induction keys with
    | nil => exact fun _ => rfl
    | cons key rest ih =>
        intro run
        rw [List.foldl_cons, List.foldl_cons, assign_after, ih]
  unfold promote
  rw [hfold]
  rfl

/-! ### Rolling back -/

/-- A round that goes on from where a run is. -/
def goOn (s : Store) (seeds : List AtomKey) (blocked : List Formula) (run : Run) : Run :=
  let run := run.settle s blocked seeds
  let chosen := run.promotions s
  (run.promote chosen).settle s blocked chosen

/-- Puts a run back to the start of its round, when the record had some length.  The visits
stay counted. -/
def rollBack (s : Store) (length : Nat) (run : Run) : Run where
  env := s.env
  forcedBy := s.forcedBy
  moves := run.moves.take length
  refusals := ∅
  fired := []
  iterations := run.iterations
  assignments := 0
  promoted := 0

theorem goOn_after (seeds : List AtomKey) :
    goOn s seeds blocked ((Run.start s).after past n) = (round s seeds blocked).after past n := by
  unfold goOn round
  simp only [settle_after, promotions_after, promote_after]

theorem rollBack_after : (run.after past n).rollBack s past.length =
    (Run.start s).after past (n + run.iterations) := by
  unfold rollBack after start
  simp

end Run

namespace Store

/-- Rounds in one state, rolled back before each but the first, until one is accepted. -/
def retry (s : Store) (seeds : List AtomKey) (length : Nat) : Nat → List Formula → Nat → Run → Solution
  | 0, blocked, restarts, run =>
    let run := run.goOn s seeds blocked
    ⟨run, blocked, run.iterations, restarts⟩
  | fuel + 1, blocked, restarts, run =>
    let run := run.goOn s seeds blocked
    if run.stale.isEmpty then ⟨run, blocked, run.iterations, restarts⟩
    else s.retry seeds length fuel (blocked ++ run.stale) (restarts + 1) (run.rollBack s length)

theorem retry_eq_accept (s : Store) (seeds : List AtomKey) (past : List Move) (fuel : Nat)
    (blocked : List Formula) (restarts n : Nat) :
    ∃ m, s.retry seeds past.length fuel blocked restarts ((Run.start s).after past n) =
      { s.accept seeds fuel blocked n restarts with
        run := (s.accept seeds fuel blocked n restarts).run.after past m } := by
  induction fuel generalizing blocked restarts n with
  | zero =>
      refine ⟨n, ?_⟩
      simp only [retry, accept, Run.goOn_after]
      rfl
  | succ fuel ih =>
      have hstale : ∀ run : Run, (run.after past n).stale = run.stale := fun _ => rfl
      simp only [retry, accept, Run.goOn_after, hstale]
      split
      · exact ⟨n, rfl⟩
      · rw [Run.rollBack_after]
        exact ih _ _ _

/-- Rounds in one state, which goes on from the record there is, find the solution. -/
theorem retry_eq_solution (s : Store) (seeds : List AtomKey) :
    ∃ n, s.retry seeds s.recorded.length s.active.length [] 0 { Run.start s with moves := s.recorded } =
      { s.solution seeds with run := (s.solution seeds).run.after s.recorded n } := by
  have hstart : { Run.start s with moves := s.recorded } = (Run.start s).after s.recorded 0 := by
    unfold Run.after Run.start
    simp
  rw [hstart]
  exact retry_eq_accept s seeds s.recorded s.active.length [] 0 0

/-- Solves from some atoms in one state, which is rolled back to this store after every rejected
round. -/
def resumeInPlace (s : Store) (seeds : List AtomKey) : Store :=
  let sol := s.retry seeds s.recorded.length s.active.length [] 0 { Run.start s with moves := s.recorded }
  { s with env := sol.run.env, forcedBy := sol.run.forcedBy, trace := s.trace.map fun _ => sol.run.moves }

theorem resumeInPlace_eq_commit (s : Store) (seeds : List AtomKey) :
    s.resumeInPlace seeds = s.commit (s.solution seeds).run := by
  obtain ⟨n, hretry⟩ := retry_eq_solution s seeds
  have htrace : s.trace.map (fun _ => s.recorded ++ (s.solution seeds).run.moves) =
      s.trace.map (· ++ (s.solution seeds).run.moves) := by
    unfold recorded
    cases s.trace <;> rfl
  unfold resumeInPlace
  rw [hretry]
  unfold commit
  rw [← htrace]
  rfl

/-- Solves a store in one state, which starts with the record there is and is rolled back after
every rejected round. -/
def solveInPlace (s : Store) : Outcome × Store :=
  let sol := s.retry s.atoms.keys s.recorded.length s.active.length [] 0
    { Run.start s with moves := s.recorded }
  (⟨sol.stats, sol.run.conflicts s⟩,
    { s with env := sol.run.env, forcedBy := sol.run.forcedBy, trace := s.trace.map fun _ => sol.run.moves })

/-- Solving in one state comes to the same as running every round apart from the others: the same
outcome with the same counts, and the same store with the same record. -/
theorem solveInPlace_eq_solve (s : Store) : s.solveInPlace = s.solve := by
  have houtcome : s.solveInPlace.1 = s.solve.1 := by
    obtain ⟨n, hretry⟩ := retry_eq_solution s s.atoms.keys
    unfold solveInPlace
    rw [hretry]
    rfl
  exact Prod.ext houtcome (resumeInPlace_eq_commit s s.atoms.keys)

/-- **Rejected rounds leave no residue.**  Whatever the store and the kinds it starts from,
solving it comes to one round from those kinds in which the implications blocked in the end
are never fired: the kinds, the remembered constraints, the report and the counts of assignments
and promotions are those of the round, and nothing else of the store changes but the record of
moves, to which exactly the moves of the round are added, as many as assignments are counted.
Replayed from the starting kinds, each of these takes its atom up from where it is, and all of them
lead to the final kinds.  A solver that keeps one state, its counts among it, and rolls it back
after every rejected round comes to the same. -/
theorem solve_eq_round (s : Store) :
    let blocked := (s.solution s.atoms.keys).blocked
    let run := Run.round s s.atoms.keys blocked
    (∀ f ∈ blocked, s.InForce f ∧ f ∉ run.fired) ∧ run.stale = [] ∧
    s.solve.2 = { s with env := run.env, forcedBy := run.forcedBy, trace := s.trace.map (· ++ run.moves) } ∧
    s.solve.1.conflicts = run.conflicts s ∧ s.solve.1.stats.promoted = run.promoted ∧
    s.solve.1.stats.assignments = run.assignments ∧ s.solve.1.stats.assignments = run.moves.length ∧
    replay? s.env run.moves = some s.solve.2.env ∧ s.solveInPlace = s.solve := by
  have hrun := solution_eq_round s s.atoms.keys
  obtain ⟨hstale, hblocked⟩ := (accepts_solution s s.atoms.keys).blocked_inForce
  rw [hrun] at hstale
  intro blocked run
  have hcommit : s.solve.2 = s.commit run := congrArg s.commit hrun
  have hcount : s.solve.1.stats.assignments = run.assignments := congrArg Run.assignments hrun
  refine ⟨fun f hf => ⟨?_, fun hfired => ?_⟩, hstale, hcommit, ?_, ?_, hcount, ?_, ?_,
    solveInPlace_eq_solve s⟩
  · exact ((hblocked f hf).resolve_left List.not_mem_nil).1
  · exact ((Run.rounds_round s s.atoms.keys blocked).mem_fired hfired).2.2 hf
  · exact congrArg (Run.conflicts s) hrun
  · exact congrArg Run.promoted hrun
  · exact hcount.trans (Run.counted_round s s.atoms.keys blocked)
  · rw [hcommit]
    exact Run.replays_round s s.atoms.keys blocked

end Store

end PointerKinds
