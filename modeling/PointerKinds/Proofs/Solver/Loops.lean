/-
The loops of the solver, and that they come to an end.

The solver is written with a bound on each of its loops: on the visits, on the firings, on
the walk through a component, and on the rounds.  Here the loops are stated without any
bound, as relations that hold of a start and an outcome exactly if going round until there
is nothing left to do leads from one to the other.  That the bounded loops satisfy these
relations says that every loop ends by itself, and that no bound ever cuts one short.

Nothing is assumed of the store.  A visit pays for itself in the queue or in the room above
the atoms; a firing takes a formula off those not fired; a step of the walk takes an atom off
those not met; and a rejected round blocks an implication that was not blocked.

What nothing in a phase can undo holds at the end of a round, if it survives the promotions.
The first such fact is that a round counts as many assignments as it makes moves.
-/
import PointerKinds.Proofs.Solver.Components

namespace PointerKinds

namespace Formula

/-- An implication that has to be fired: its premise might become false again. -/
def isDeferred : Formula → Bool
  | implies premise _ => !premise.isFinal
  | _ => false

end Formula

namespace Run

variable {s : Store} {run run' : Run} {blocked : List Formula} {seeds queue : List AtomKey} {f : Formula}
  {id : ConstraintId} {key : AtomKey}

/-! ### A phase -/

/-- Visits until nobody waits, then fires an implication that does, until none is left. -/
inductive Settles (s : Store) (blocked : List Formula) : Run → List AtomKey → Run → Prop
  | visit {run run' : Run} {key : AtomKey} {queue : List AtomKey}
      (h : Settles s blocked (run.visit s key queue).1 (run.visit s key queue).2 run') :
      Settles s blocked run (key :: queue) run'
  | fire {run run' : Run} {id : ConstraintId} {p c : Formula}
      (hnext : run.waiting? s blocked = some (id, .implies p c))
      (h : Settles s blocked ((run.commitTo (.implies p c)).apply s id c).2
        ((run.commitTo (.implies p c)).apply s id c).1.toList run') : Settles s blocked run [] run'
  | rest {run : Run} (hnext : run.waiting? s blocked = none) : Settles s blocked run [] run

/-- Draining the queue is no shorter than the visits take. -/
theorem Settles.of_drain (fuel : Nat) (hfuel : queue.length + slack s run ≤ fuel)
    (h : Settles s blocked (run.drain s fuel queue) [] run') : Settles s blocked run queue run' := by
  induction fuel generalizing run queue with
  | zero =>
      cases queue with
      | nil => exact h
      | cons key rest => simp at hfuel
  | succ fuel ih =>
      cases queue with
      | nil => exact h
      | cons key rest =>
          have hmeasure := visit_measure s run key rest
          rw [List.length_cons] at hfuel
          exact .visit (ih (by omega) h)

theorem Settles.of_propagate (h : Settles s blocked (run.propagate s seeds) [] run') :
    Settles s blocked run (seeds.foldl enqueue []) run' := by
  have hslack := slack_le s run
  exact .of_drain _ (by omega) h

theorem fired_step (state : Run × List AtomKey) (c : ConstraintId × Formula) :
    (Run.step s state c).1.fired = state.1.fired := by
  have hfired := fired_apply s c.1 state.1 c.2
  unfold Run.step
  generalize state.1.apply s c.1 c.2 = r at hfired
  obtain ⟨_ | moved, after⟩ := r <;> exact hfired

theorem fired_visit (s : Store) (run : Run) (key : AtomKey) (queue : List AtomKey) :
    (run.visit s key queue).1.fired = run.fired := by
  suffices h : ∀ (l : List (ConstraintId × Formula)) (state : Run × List AtomKey),
      (l.foldl (Run.step s) state).1.fired = state.1.fired from h _ _
  intro l
  induction l with
  | nil => exact fun _ => rfl
  | cons c rest ih => exact fun state => (ih _).trans (fired_step state c)

theorem fired_drain (fuel : Nat) (run : Run) (queue : List AtomKey) :
    (run.drain s fuel queue).fired = run.fired := by
  induction fuel generalizing run queue with
  | zero => cases queue <;> rfl
  | succ fuel ih =>
      cases queue with
      | nil => rfl
      | cons key rest => exact (ih _ _).trans (fired_visit s run key rest)

/-- Firing commits the run to one implication and to nothing else. -/
theorem fired_fire (s : Store) (run : Run) (id : ConstraintId) (p c : Formula) :
    (run.fire s id (.implies p c)).fired = run.fired ++ [.implies p c] := by
  have hfired := fired_apply s id (run.commitTo (.implies p c)) c
  rw [fire_implies]
  generalize (run.commitTo (.implies p c)).apply s id c = r at hfired
  obtain ⟨_ | moved, after⟩ := r
  · exact hfired
  · exact (fired_drain _ _ _).trans hfired

/-- Firing what waits is no shorter than there are formulas to fire. -/
theorem settles_fireAll (fuel : Nat) (hfuel : outside s run.fired ≤ fuel) :
    Settles s blocked run [] (fireAll s blocked fuel run) := by
  induction fuel generalizing run with
  | zero =>
      refine .rest (Option.eq_none_iff_forall_ne_some.2 fun c hnext => ?_)
      have hlt := outside_fired_lt hnext fun _ hg => hg
      omega
  | succ fuel ih =>
      rw [fireAll]
      cases hnext : run.waiting? s blocked with
      | none => exact .rest hnext
      | some c =>
          obtain ⟨id, f⟩ := c
          obtain ⟨p, c, rfl, -⟩ := isWaiting_iff.1 (mem_of_waiting?_eq_some hnext).2
          have hless := outside_fired_lt hnext fun g hg => (fired_fire s run id p c).symm ▸ hg
          have hrest := @ih (run.fire s id (.implies p c)) (by omega)
          refine .fire hnext ?_
          show Settles s blocked _ _ (fireAll s blocked fuel (run.fire s id (.implies p c)))
          rw [fire_implies] at hrest ⊢
          generalize (run.commitTo (.implies p c)).apply s id c = r at hrest
          obtain ⟨_ | moved, after⟩ := r
          · exact hrest
          · exact .of_propagate hrest

theorem settles_settle (s : Store) (blocked : List Formula) (run : Run) (seeds : List AtomKey) :
    Settles s blocked run (seeds.foldl enqueue []) (run.settle s blocked seeds) :=
  .of_propagate (settles_fireAll _ (outside_le s _))

/-- What a phase commits itself to is a deferred implication in force that is not blocked. -/
theorem Settles.mem_fired (h : Settles s blocked run queue run') (hf : f ∈ run'.fired) :
    f ∈ run.fired ∨ (∃ id, (id, f) ∈ s.activeFormulas) ∧ f.isDeferred = true ∧ f ∉ blocked := by
  induction h with
  | @visit run _ key queue _ ih => exact fired_visit s run key queue ▸ ih hf
  | @fire run _ id p c hnext _ ih =>
      rcases ih hf with hold | hnew
      · rw [fired_apply, mem_fired_commitTo] at hold
        rcases hold with hold | rfl
        · exact .inl hold
        · obtain ⟨hmem, hwait⟩ := mem_of_waiting?_eq_some hnext
          obtain ⟨p', c', he, hfinal, -, hopen, -⟩ := isWaiting_iff.1 hwait
          obtain ⟨rfl, rfl⟩ := Formula.implies.inj he
          exact .inr ⟨⟨id, hmem⟩, by simp [Formula.isDeferred, hfinal], hopen⟩
      · exact .inr hnew
  | rest => exact .inl hf

/-! ### What lasts -/

/-- A property that a phase keeps as long as atoms are raised for some constraints only, and only
by what these ask for. -/
structure Kept (s : Store) (F : ConstraintId → Formula → Prop) (P : Run → Prop) : Prop where
  visit : ∀ run : Run, P run → P { run with iterations := run.iterations + 1 }
  raise : ∀ (run : Run) (id : ConstraintId) (f : Formula) (key : AtomKey) (k : Kind), F id f → run.Asks f key k →
    P run → P (run.raise s id key k).2
  commit : ∀ (run : Run) (f : Formula), P run → P (run.commitTo f)

variable {F : ConstraintId → Formula → Prop} {P : Run → Prop}

theorem Kept.apply (hP : Kept s F P) (hf : F id f) (h : P run) : P (run.apply s id f).2 := by
  rcases apply_cases s id run f with ⟨e, -⟩ | ⟨key, k, hask, e⟩
  · rwa [e]
  · rw [e]
    exact hP.raise run id f key k hf hask h

theorem Kept.steps (hP : Kept s F P) (l : List (ConstraintId × Formula)) (hl : ∀ c ∈ l, F c.1 c.2)
    (state : Run × List AtomKey) (h : P state.1) : P (l.foldl (Run.step s) state).1 := by
  induction l generalizing state with
  | nil => exact h
  | cons c rest ih =>
      refine ih (fun d hd => hl d (List.mem_cons_of_mem c hd)) _ ?_
      have happly := hP.apply (hl c List.mem_cons_self) h
      unfold Run.step
      generalize state.1.apply s c.1 c.2 = r at happly
      obtain ⟨_ | moved, after⟩ := r <;> exact happly

theorem Settles.keeps (hP : Kept s F P) (hF : ∀ id f, s.formula? id = some f → F id f)
    (h : Settles s blocked run queue run') (hrun : P run) : P run' := by
  induction h with
  | @visit run _ key queue _ ih =>
      exact ih (hP.steps _ (fun c hc => hF _ _ (Store.mem_formulasAt.1 hc).2) _ (hP.visit run hrun))
  | fire hnext _ ih =>
      obtain ⟨hmem, hwait⟩ := mem_of_waiting?_eq_some hnext
      rw [← apply_commitTo _ hwait] at ih
      exact ih (hP.apply (hF _ _ (Store.mem_activeFormulas.1 hmem).2) (hP.commit _ _ hrun))
  | rest => exact hrun

/-- What is kept, and survives promotions, holds at the end of every round. -/
theorem round_kept (hP : Kept s F P) (hF : ∀ id f, s.formula? id = some f → F id f)
    (hpromote : ∀ run : Run, P run → P (run.promote (run.promotions s))) (seeds : List AtomKey)
    (blocked : List Formula) (h : P (Run.start s)) : P (round s seeds blocked) := by
  have hhard : P (hard s seeds blocked) := (settles_settle s blocked (Run.start s) seeds).keeps hP hF h
  exact (settles_settle s blocked _ _).keeps hP hF (hpromote _ hhard)

/-- A property that nothing a phase does can undo. -/
structure Lasting (s : Store) (P : Run → Prop) : Prop where
  visit : ∀ run : Run, P run → P { run with iterations := run.iterations + 1 }
  raise : ∀ (run : Run) (id : ConstraintId) (key : AtomKey) (k : Kind), P run → P (run.raise s id key k).2
  commit : ∀ (run : Run) (f : Formula), P run → P (run.commitTo f)

theorem Lasting.kept (hP : Lasting s P) : Kept s (fun _ _ => True) P where
  visit := hP.visit
  raise run id _ key k _ _ := hP.raise run id key k
  commit := hP.commit

theorem Lasting.steps (hP : Lasting s P) (l : List (ConstraintId × Formula)) (state : Run × List AtomKey)
    (h : P state.1) : P (l.foldl (Run.step s) state).1 :=
  hP.kept.steps l (fun _ _ => trivial) state h

theorem Settles.lasts (hP : Lasting s P) (h : Settles s blocked run queue run') (hrun : P run) : P run' :=
  h.keeps hP.kept (fun _ _ _ => trivial) hrun

/-- What lasts, and survives promotions, holds at the end of every round. -/
theorem round_lasts (hP : Lasting s P) (hpromote : ∀ run : Run, P run → P (run.promote (run.promotions s)))
    (seeds : List AtomKey) (blocked : List Formula) (h : P (Run.start s)) : P (round s seeds blocked) :=
  round_kept hP.kept (fun _ _ _ => trivial) hpromote seeds blocked h

/-! ### Counting assignments -/

theorem nodup_promotions (s : Store) (run : Run) : (run.promotions s).Nodup :=
  ((SortedMap.nodup_keys _).filter _).filter _

/-- Promotions are at different atoms, so each of them still is a plain array when its turn
comes. -/
theorem moves_promote {keys : List AtomKey} (hnodup : keys.Nodup) (harr : ∀ x ∈ keys, run.value x = .arr) :
    (run.promote keys).moves = run.moves ++ keys.map fun x => ⟨x, .arr, .ntArr⟩ := by
  show (keys.foldl (fun run key => run.assign key .ntArr none) run).moves = _
  induction keys generalizing run with
  | nil => exact (List.append_nil _).symm
  | cons key rest ih =>
      obtain ⟨hfresh, hnodup⟩ := List.nodup_cons.1 hnodup
      have harr' : ∀ x ∈ rest, (run.assign key .ntArr none).value x = .arr := fun x hx => by
        rw [value_assign, if_neg (ne_of_mem_of_not_mem hx hfresh)]
        exact harr x (List.mem_cons_of_mem key hx)
      have hfirst : (run.assign key .ntArr none).moves = run.moves ++ [⟨key, .arr, .ntArr⟩] := by
        rw [← harr key List.mem_cons_self]
        rfl
      rw [List.foldl_cons, ih hnodup harr', hfirst, List.append_assoc]
      rfl

/-- As many assignments are counted as moves are on record. -/
def Counted (run : Run) : Prop := run.assignments = run.moves.length

theorem lasting_counted (s : Store) : Lasting s Counted where
  visit _ h := h
  commit _ _ h := h
  raise run id key k h := by
    have hassign : ∀ (r : Run) (g : Kind), r.Counted → ((r.assign key g (some id)).count 1).Counted :=
      fun r g hr => by
        show r.assignments + 1 = (r.moves ++ [_]).length
        rw [List.length_append, hr]
        rfl
    rcases raise_cases s id run key k with ⟨e, -⟩ | ⟨a, -, -, -, e⟩ | ⟨a, g, run', -, -, -, hr, e⟩
    · rwa [e]
    · rw [e]
      exact h
    · rw [e]
      rcases hr with ⟨-, rfl⟩ | ⟨-, rfl⟩
      · exact hassign _ g h
      · exact hassign (run.refuse _ _) g h

/-- Promotions are counted all at once, after the last of them. -/
theorem Counted.promote (h : run.Counted) : (run.promote (run.promotions s)).Counted := by
  have hmoves := moves_promote (nodup_promotions s run) fun key hkey => (mem_promotions hkey).1
  unfold Counted
  rw [assignments_promote, h, hmoves, List.length_append, List.length_map]

/-- What a round counts is the number of its moves. -/
theorem counted_round (s : Store) (seeds : List AtomKey) (blocked : List Formula) :
    (round s seeds blocked).Counted :=
  round_lasts (lasting_counted s) (fun _ h => h.promote) seeds blocked rfl

/-! ### A component -/

/-- Follows neighbours from the atoms on a stack until it is empty. -/
inductive Explores (s : Store) (run : Run) : List AtomKey → List AtomKey → List AtomKey → Prop
  | done {met : List AtomKey} : Explores s run met [] met
  | step {met met' stack : List AtomKey} {key : AtomKey}
      (h : Explores s run ((run.arrNeighbours s key).foldl meet (met, stack)).1
        ((run.arrNeighbours s key).foldl meet (met, stack)).2 met') : Explores s run met (key :: stack) met'

theorem value_of_mem_arrNeighbours {x : AtomKey} (h : x ∈ run.arrNeighbours s key) :
    run.value x = .arr := by
  unfold arrNeighbours at h
  obtain ⟨c, -, h⟩ := List.mem_filterMap.1 h
  split at h
  · simp only [Option.ite_none_right_eq_some, Option.some.injEq] at h
    exact h.2 ▸ h.1
  · exact nomatch h

/-- A walk among plain arrays is no shorter than there are atoms to meet. -/
theorem explores_explore {met stack : List AtomKey} (fuel : Nat) (hnodup : met.Nodup)
    (harr : ∀ x ∈ met, run.value x = .arr)
    (hfuel : run.arrAtoms.length + stack.length ≤ fuel + met.length) :
    Explores s run met stack (run.explore s fuel met stack) := by
  have hmet : met.length ≤ run.arrAtoms.length :=
    (List.subperm_of_subset hnodup fun x hx => mem_arrAtoms.2 (harr x hx)).length_le
  induction fuel generalizing met stack with
  | zero =>
      cases stack with
      | nil => exact .done
      | cons key rest =>
          rw [List.length_cons] at hfuel
          omega
  | succ fuel ih =>
      cases stack with
      | nil => exact .done
      | cons key rest =>
          obtain ⟨hnodup', hmem, -, hlength⟩ := foldl_meet_spec (run.arrNeighbours s key) met rest hnodup
          have harr' : ∀ x ∈ ((run.arrNeighbours s key).foldl meet (met, rest)).1, run.value x = .arr :=
            fun x hx => ((hmem x).1 hx).elim (harr x) value_of_mem_arrNeighbours
          rw [List.length_cons] at hfuel
          refine .step (ih hnodup' harr' (by omega) ?_)
          exact (List.subperm_of_subset hnodup' fun x hx => mem_arrAtoms.2 (harr' x hx)).length_le

theorem explores_component (s : Store) (h : key ∈ run.arrAtoms) :
    Explores s run [key] [key] (run.component s key) := by
  refine explores_explore _ (List.nodup_singleton key) (fun x hx => ?_) (by simp)
  rw [List.mem_singleton.1 hx]
  exact mem_arrAtoms.1 h

theorem Explores.subset {met stack met' : List AtomKey} (h : Explores s run met stack met') :
    met ⊆ met' := by
  have hmeet : ∀ (l : List AtomKey) (state : List AtomKey × List AtomKey),
      state.1 ⊆ (l.foldl meet state).1 := by
    intro l
    induction l with
    | nil => exact fun state => List.Subset.refl _
    | cons key rest ih =>
        refine fun state => List.Subset.trans ?_ (ih (meet state key))
        unfold meet
        split
        · exact List.Subset.refl _
        · exact List.subset_append_left _ _
  induction h with
  | done => exact List.Subset.refl _
  | @step met _ stack key _ ih =>
      exact List.Subset.trans (hmeet (run.arrNeighbours s key) (met, stack)) ih

/-! ### A round -/

/-- Settles, promotes every component that wants it, and settles again. -/
def Rounds (s : Store) (seeds : List AtomKey) (blocked : List Formula) (run : Run) : Prop :=
  ∃ (hard : Run) (members : AtomKey → List AtomKey) (chosen : List AtomKey),
    Settles s blocked (Run.start s) (seeds.foldl enqueue []) hard ∧
    (∀ key ∈ hard.arrAtoms, Explores s hard [key] [key] (members key)) ∧
    (chosen = hard.arrAtoms.filter fun key =>
      (members key).any (wantsPromotion s) && !(members key).any (blocksPromotion s)) ∧
    Settles s blocked (hard.promote chosen) (chosen.foldl enqueue []) run

theorem rounds_round (s : Store) (seeds : List AtomKey) (blocked : List Formula) :
    Rounds s seeds blocked (round s seeds blocked) :=
  ⟨hard s seeds blocked, (hard s seeds blocked).component s, _, settles_settle ..,
    fun _ hkey => explores_component s hkey, rfl, settles_settle ..⟩

theorem Rounds.mem_fired (h : Rounds s seeds blocked run) (hf : f ∈ run.fired) :
    (∃ id, (id, f) ∈ s.activeFormulas) ∧ f.isDeferred = true ∧ f ∉ blocked := by
  obtain ⟨hard, members, chosen, hfirst, -, -, hlast⟩ := h
  rcases hlast.mem_fired hf with hf | hnew
  · rw [fired_promote] at hf
    exact (hfirst.mem_fired hf).resolve_left List.not_mem_nil
  · exact hnew

end Run

namespace Store

variable {s : Store} {seeds : List AtomKey} {blocked : List Formula} {sol : Solution}

/-! ### Rounds until one is accepted -/

/-- The implications in force that have to be fired. -/
def deferred (s : Store) : List (ConstraintId × Formula) :=
  s.activeFormulas.filter fun c => c.2.isDeferred

/-- Those of them that are not blocked. -/
def unblocked (s : Store) (blocked : List Formula) : List (ConstraintId × Formula) :=
  s.deferred.filter fun c => !blocked.contains c.2

/-- Runs rounds, blocking what they leave stale, until one leaves nothing stale.  The numbers
are those of the visits and of the rejected rounds so far. -/
inductive Accepts (s : Store) (seeds : List AtomKey) : List Formula → Nat → Nat → Solution → Prop
  | accept {blocked : List Formula} {iterations restarts : Nat} {run : Run}
      (hround : Run.Rounds s seeds blocked run) (hstale : run.stale = []) :
      Accepts s seeds blocked iterations restarts ⟨run, blocked, iterations + run.iterations, restarts⟩
  | restart {blocked : List Formula} {iterations restarts : Nat} {run : Run} {sol : Solution}
      (hround : Run.Rounds s seeds blocked run) (hstale : run.stale ≠ [])
      (h : Accepts s seeds (blocked ++ run.stale) (iterations + run.iterations) (restarts + 1) sol) :
      Accepts s seeds blocked iterations restarts sol

/-- A rejected round blocks a deferred implication in force. -/
theorem unblocked_lt {run : Run} (hround : Run.Rounds s seeds blocked run) (hstale : run.stale ≠ []) :
    (s.unblocked (blocked ++ run.stale)).length < (s.unblocked blocked).length := by
  obtain ⟨f, hf⟩ := List.exists_mem_of_ne_nil _ hstale
  obtain ⟨⟨id, hid⟩, hdeferred, hopen⟩ := hround.mem_fired (Run.mem_stale.1 hf).1
  exact Run.length_filter_not_contains_lt (List.subset_append_left _ _)
    (List.mem_filter.2 ⟨hid, hdeferred⟩) hopen (List.mem_append_right _ hf)

/-- Running rounds is no shorter than there are implications to block. -/
theorem accepts_accept (fuel : Nat) (iterations restarts : Nat)
    (hfuel : (s.unblocked blocked).length ≤ fuel) :
    Accepts s seeds blocked iterations restarts (s.accept seeds fuel blocked iterations restarts) := by
  induction fuel generalizing blocked iterations restarts with
  | zero =>
      refine .accept (Run.rounds_round ..) (by_contra fun hstale => ?_)
      have hlt := unblocked_lt (Run.rounds_round s seeds blocked) hstale
      omega
  | succ fuel ih =>
      simp only [accept]
      split
      · rename_i hstale
        exact .accept (Run.rounds_round ..) (List.isEmpty_iff.1 hstale)
      · rename_i hstale
        have hstale : (Run.round s seeds blocked).stale ≠ [] := fun e => hstale (List.isEmpty_iff.2 e)
        have hlt := unblocked_lt (Run.rounds_round s seeds blocked) hstale
        exact .restart (Run.rounds_round ..) hstale (ih _ _ (by omega))

/-- The solution of any store is found by loops that come to an end by themselves. -/
theorem accepts_solution (s : Store) (seeds : List AtomKey) :
    Accepts s seeds [] 0 0 (s.solution seeds) := by
  refine accepts_accept _ _ _ ?_
  refine le_trans (List.length_filter_le _ _) (le_trans (List.length_filter_le _ _) ?_)
  exact List.length_filterMap_le _ _

/-- What is accepted is a round of its own. -/
theorem accept_eq_round (s : Store) (seeds : List AtomKey) (fuel : Nat) (blocked : List Formula)
    (iterations restarts : Nat) :
    (s.accept seeds fuel blocked iterations restarts).run =
      Run.round s seeds (s.accept seeds fuel blocked iterations restarts).blocked := by
  induction fuel generalizing blocked iterations restarts with
  | zero => rfl
  | succ fuel ih =>
      simp only [accept]
      split
      · rfl
      · exact ih _ _ _

theorem solution_eq_round (s : Store) (seeds : List AtomKey) :
    (s.solution seeds).run = Run.round s seeds (s.solution seeds).blocked :=
  accept_eq_round ..

end Store

end PointerKinds
