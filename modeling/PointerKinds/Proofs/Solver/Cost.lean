/-
What solving costs.

The account of a run is kept in three figures.  Atoms only rise, so every move takes at
least one step out of the room left above the registered atoms; and every visit is owed to
a seed or to a move.  An entry of the account says this of a stretch of a run, entries add
up, and so a round makes no more moves than atoms rise steps, and no more visits than it has
seeds and moves.

Every rejected round blocks a deferred implication, which bounds the rounds.  The assignments
that are reported are the moves of the accepted round alone, but the visits are those of all.
-/
import PointerKinds.Proofs.Solver.Edits
import PointerKinds.Proofs.Solver.Loops

namespace PointerKinds

namespace Run

variable {s : Store} {run run' run'' : Run} {blocked : List Formula} {seeds queue : List AtomKey}
  {key : AtomKey} {due due' due'' : Nat}

/-! ### The account of a run -/

/-- A stretch of a run, with the visits that are due before it and after it. -/
structure Entry (s : Store) (run : Run) (due : Nat) (run' : Run) (due' : Nat) : Prop where
  /-- Atoms only rise. -/
  rises : ∀ x, run.value x ≤ run'.value x
  /-- Every move is paid for by the room above the atoms. -/
  moves : run'.moves.length + slack s run' ≤ run.moves.length + slack s run
  /-- Every visit was due before, or is owed to a move. -/
  visits : run'.iterations + due' + run.moves.length ≤ run.iterations + due + run'.moves.length

theorem Entry.of_value_eq (hval : run'.value = run.value) (hmoves : run'.moves = run.moves)
    (hdue : run'.iterations + due' ≤ run.iterations + due) : Entry s run due run' due' where
  rises x := le_of_eq (congrFun hval x).symm
  moves := by rw [hmoves, slack, room_congr hval, slack]
  visits := by
    rw [hmoves]
    omega

theorem Entry.refl (s : Store) (run : Run) (h : due' ≤ due) : Entry s run due run due' :=
  .of_value_eq rfl rfl (Nat.add_le_add_left h _)

theorem Entry.trans (h : Entry s run due run' due') (h' : Entry s run' due' run'' due'') :
    Entry s run due run'' due'' where
  rises x := le_trans (h.rises x) (h'.rises x)
  moves := le_trans h'.moves h.moves
  visits := by
    have h₁ := h.visits
    have h₂ := h'.visits
    omega

/-- A raise is one move or none. -/
theorem counts_raise (s : Store) (id : ConstraintId) (run : Run) (key : AtomKey) (k : Kind) :
    (run.raise s id key k).2.moves.length = run.moves.length + (run.raise s id key k).1.toList.length ∧
      (run.raise s id key k).2.iterations = run.iterations := by
  rcases raise_cases s id run key k with ⟨e, -⟩ | ⟨a, -, -, -, e⟩ | ⟨a, g, run', -, -, -, hr, e⟩
  · rw [e]
    exact ⟨rfl, rfl⟩
  · rw [e]
    exact ⟨rfl, rfl⟩
  · rw [e]
    rcases hr with ⟨-, rfl⟩ | ⟨-, rfl⟩ <;> exact ⟨List.length_append, rfl⟩

theorem counts_apply (s : Store) (id : ConstraintId) (run : Run) (f : Formula) :
    (run.apply s id f).2.moves.length = run.moves.length + (run.apply s id f).1.toList.length ∧
      (run.apply s id f).2.iterations = run.iterations := by
  rcases apply_cases s id run f with ⟨e, -⟩ | ⟨key, k, -, e⟩
  · rw [e]
    exact ⟨rfl, rfl⟩
  · rw [e]
    exact counts_raise s id run key k

/-- Applying a constraint makes one visit due if it moves an atom. -/
theorem entry_apply (s : Store) (id : ConstraintId) (run : Run) (f : Formula) (due : Nat) :
    Entry s run due (run.apply s id f).2 (due + (run.apply s id f).1.toList.length) := by
  obtain ⟨hmoves, hiterations⟩ := counts_apply s id run f
  have hvisits : (run.apply s id f).2.iterations + (due + (run.apply s id f).1.toList.length) +
      run.moves.length ≤ run.iterations + due + (run.apply s id f).2.moves.length := by omega
  cases hmove : (run.apply s id f).1 with
  | none =>
      have hval := value_apply_of_none hmove
      have hslack : slack s (run.apply s id f).2 = slack s run := room_congr hval _
      rw [hmove] at hmoves hvisits
      exact ⟨fun x => le_of_eq (congrFun hval x).symm, by rw [hmoves, hslack]; exact le_refl _, hvisits⟩
  | some moved =>
      obtain ⟨-, hreg, hlt, hval⟩ := apply_of_some hmove
      have hslack : slack s (run.apply s id f).2 < slack s run := slack_lt hreg hlt hval
      rw [hmove] at hmoves hvisits
      refine ⟨fun x => ?_, ?_, hvisits⟩
      · by_cases hx : x = moved
        · exact hx ▸ le_of_lt hlt
        · exact le_of_eq (hval x hx).symm
      · rw [hmoves, Option.toList_some, List.length_singleton]
        omega

theorem entry_step (s : Store) (state : Run × List AtomKey) (c : ConstraintId × Formula) :
    Entry s state.1 state.2.length (Run.step s state c).1 (Run.step s state c).2.length := by
  have hentry := entry_apply s c.1 state.1 c.2 state.2.length
  unfold Run.step
  generalize state.1.apply s c.1 c.2 = r at hentry
  obtain ⟨_ | moved, after⟩ := r
  · exact hentry
  · exact hentry.trans (.refl s after (length_enqueue_le state.2 moved))

theorem entry_visit (s : Store) (run : Run) (key : AtomKey) (queue : List AtomKey) :
    Entry s run (key :: queue).length (run.visit s key queue).1 (run.visit s key queue).2.length := by
  have hsteps : ∀ (l : List (ConstraintId × Formula)) (state : Run × List AtomKey),
      Entry s state.1 state.2.length (l.foldl (Run.step s) state).1 (l.foldl (Run.step s) state).2.length := by
    intro l
    induction l with
    | nil => exact fun state => .refl s _ (le_refl _)
    | cons c rest ih => exact fun state => (entry_step s state c).trans (ih _)
  have hcount : Entry s run (key :: queue).length { run with iterations := run.iterations + 1 }
      queue.length := by
    refine .of_value_eq rfl rfl ?_
    show run.iterations + 1 + queue.length ≤ run.iterations + (queue.length + 1)
    omega
  exact hcount.trans (hsteps (s.formulasAt key) ({ run with iterations := run.iterations + 1 }, queue))

theorem Settles.entry (h : Settles s blocked run queue run') : Entry s run queue.length run' 0 := by
  induction h with
  | visit _ ih => exact (entry_visit ..).trans ih
  | @fire run _ id p c _ _ ih =>
      have hcommit : Entry s run 0 (run.commitTo (.implies p c)) 0 := .of_value_eq rfl rfl (le_refl _)
      have happly := entry_apply s id (run.commitTo (.implies p c)) c 0
      rw [Nat.zero_add] at happly
      exact (hcommit.trans happly).trans ih
  | rest => exact .refl s _ (le_refl _)

/-! ### Promotions -/

/-- Every promotion is a move of a registered atom, and makes one visit due. -/
theorem entry_promote {keys : List AtomKey} (hnodup : keys.Nodup)
    (hkeys : ∀ key ∈ keys, run.value key = .arr ∧ s.atoms.contains key = true) :
    Entry s run 0 (run.promote keys) keys.length := by
  suffices h : ∀ due, Entry s run due (keys.foldl (fun run key => run.assign key .ntArr none) run)
      (due + keys.length) by
    have hentry := h 0
    rw [Nat.zero_add] at hentry
    exact hentry.trans (.of_value_eq rfl rfl (le_refl _))
  induction keys generalizing run with
  | nil => exact fun due => .refl s run (le_refl _)
  | cons key rest ih =>
      intro due
      obtain ⟨hfresh, hnodup⟩ := List.nodup_cons.1 hnodup
      obtain ⟨harr, hreg⟩ := hkeys key List.mem_cons_self
      have hlt : run.value key < (run.assign key .ntArr none).value key := by
        rw [value_assign, if_pos rfl, harr]
        decide
      have hval : ∀ x, x ≠ key → (run.assign key .ntArr none).value x = run.value x := fun x hx => by
        rw [value_assign, if_neg hx]
      have hslack : slack s (run.assign key .ntArr none) < slack s run := slack_lt hreg hlt hval
      have hmoves : (run.assign key .ntArr none).moves.length = run.moves.length + 1 := List.length_append
      have hfirst : Entry s run due (run.assign key .ntArr none) (due + 1) := by
        refine ⟨fun x => ?_, by omega, ?_⟩
        · by_cases hx : x = key
          · subst hx
            exact le_of_lt hlt
          · exact le_of_eq (hval x hx).symm
        · show run.iterations + (due + 1) + run.moves.length ≤ _
          omega
      rw [List.length_cons, Nat.add_comm rest.length 1, ← Nat.add_assoc]
      refine hfirst.trans (ih hnodup (fun y hy => ?_) (due + 1))
      obtain ⟨hy', hreg'⟩ := hkeys y (List.mem_cons_of_mem key hy)
      exact ⟨by rw [hval y fun e => hfresh (e ▸ hy), hy'], hreg'⟩

theorem contains_of_blocksPromotion_eq_false (h : blocksPromotion s key = false) :
    s.atoms.contains key = true := by
  unfold blocksPromotion at h
  unfold SortedMap.contains
  cases ha : s.atoms.get? key with
  | none =>
      rw [ha] at h
      exact nomatch h
  | some a => rfl

theorem length_foldl_enqueue_le (seeds queue : List AtomKey) :
    (seeds.foldl enqueue queue).length ≤ queue.length + seeds.length := by
  induction seeds generalizing queue with
  | nil => exact le_refl _
  | cons key rest ih =>
      have hfirst := length_enqueue_le queue key
      have hrest := ih (enqueue queue key)
      rw [List.foldl_cons, List.length_cons]
      omega

/-- The account of a round. -/
theorem Rounds.entry (h : Rounds s seeds blocked run) : Entry s (Run.start s) seeds.length run 0 := by
  obtain ⟨hard, members, chosen, hfirst, hmembers, hchosen, hlast⟩ := h
  have hchosen : ∀ key ∈ chosen, key ∈ hard.arrAtoms ∧ blocksPromotion s key = false := by
    intro key hkey
    rw [hchosen, List.mem_filter, Bool.and_eq_true, Bool.not_eq_true', List.any_eq_false] at hkey
    obtain ⟨harr, -, hnobody⟩ := hkey
    exact ⟨harr, Bool.eq_false_iff.2 (hnobody key ((hmembers key harr).subset (List.mem_singleton_self key)))⟩
  have hnodup : chosen.Nodup := by
    rw [‹chosen = _›]
    exact ((SortedMap.nodup_keys _).filter _).filter _
  have hpromote : Entry s hard 0 (hard.promote chosen) chosen.length :=
    entry_promote hnodup fun key hkey => ⟨mem_arrAtoms.1 (hchosen key hkey).1,
      contains_of_blocksPromotion_eq_false (hchosen key hkey).2⟩
  have hqueue : ∀ l : List AtomKey, (l.foldl enqueue []).length ≤ l.length := by
    intro l
    have hlength := length_foldl_enqueue_le l []
    rwa [List.length_nil, Nat.zero_add] at hlength
  have hfirst : Entry s (Run.start s) seeds.length hard 0 :=
    (Entry.refl s _ (hqueue seeds)).trans hfirst.entry
  have hlast : Entry s (hard.promote chosen) chosen.length run 0 :=
    (Entry.refl s _ (hqueue chosen)).trans hlast.entry
  exact hfirst.trans (hpromote.trans hlast)

/-- A round visits no atom but for a seed or a move, and moves no further than there is room. -/
theorem Rounds.iterations_le (h : Rounds s seeds blocked run) :
    run.iterations ≤ seeds.length + 3 * s.atoms.size := by
  have hmoves : run.moves.length + slack s run ≤ 0 + slack s (Run.start s) := h.entry.moves
  have hvisits : run.iterations + 0 + 0 ≤ 0 + seeds.length + run.moves.length := h.entry.visits
  have hslack := slack_le s (Run.start s)
  omega

/-! ### Steps -/

/-- How many steps some atoms rise from one environment to another, all together. -/
def climb (E F : AtomKey → Kind) : List AtomKey → Nat
  | [] => 0
  | key :: keys => (F key).rank - (E key).rank + climb E F keys

/-- How many steps the registered atoms rise, all together. -/
def steps (s : Store) (E F : AtomKey → Kind) : Nat := climb E F s.atoms.keys

/-- Atoms lose as much room above them as they rise steps. -/
theorem room_eq (hle : ∀ x, run.value x ≤ run'.value x) (keys : List AtomKey) :
    room run keys = room run' keys + climb run.value run'.value keys := by
  induction keys with
  | nil => rfl
  | cons key rest ih =>
      have hkey := Kind.le_def.1 (hle key)
      have htop := Kind.rank_le_three (run'.value key)
      simp only [room, climb, ih]
      omega

theorem climb_le (E F : AtomKey → Kind) (keys : List AtomKey) : climb E F keys ≤ 3 * keys.length := by
  induction keys with
  | nil => exact le_refl _
  | cons key rest ih =>
      have htop := Kind.rank_le_three (F key)
      rw [climb, List.length_cons]
      omega

theorem steps_le (s : Store) (E F : AtomKey → Kind) : steps s E F ≤ 3 * s.atoms.size := by
  rw [s.atoms.size_eq]
  exact climb_le E F _

/-- Every move of a round takes an atom up by a step at least. -/
theorem Rounds.moves_le (h : Rounds s seeds blocked run) :
    run.moves.length ≤ steps s s.value run.value := by
  have hmoves : run.moves.length + slack s run ≤ 0 + slack s (Run.start s) := h.entry.moves
  have hroom : slack s (Run.start s) = slack s run + steps s s.value run.value :=
    room_eq h.entry.rises s.atoms.keys
  omega

end Run

namespace Store

variable {s : Store} {seeds : List AtomKey} {blocked : List Formula} {sol : Solution}

/-! ### The accepted round -/

/-- The solution is a round, and the counts of the rounds before it are bounded. -/
theorem Accepts.cost {iterations restarts : Nat} (h : s.Accepts seeds blocked iterations restarts sol) :
    Run.Rounds s seeds sol.blocked sol.run ∧
      sol.restarts + (s.unblocked sol.blocked).length ≤ restarts + (s.unblocked blocked).length ∧
      sol.iterations + (seeds.length + 3 * s.atoms.size) * restarts ≤
        iterations + (seeds.length + 3 * s.atoms.size) * (sol.restarts + 1) := by
  induction h with
  | accept hround _ =>
      have hvisits := hround.iterations_le
      refine ⟨hround, le_refl _, ?_⟩
      rw [Nat.mul_succ]
      dsimp only
      omega
  | restart hround hstale _ ih =>
      obtain ⟨hrun, hrestarts, hiterations⟩ := ih
      have hvisits := hround.iterations_le
      have hless := unblocked_lt hround hstale
      refine ⟨hrun, by omega, ?_⟩
      rw [Nat.mul_succ] at hiterations
      omega

/-- **Solving comes to an end, at a bounded cost.**  Whatever the store, and whatever kinds it
starts from, the rounds of the solver end by themselves, and one that is accepted is found.
No more rounds are rejected than there are deferred implications in force; the moves are no
more than the steps that the atoms rise, which are at most three for each atom; and the
visits are at most four for each atom in each round.  Releasing a region ends in the same
way. -/
theorem solve_terminates (s : Store) :
    (∃ sol, s.Accepts s.atoms.keys [] 0 0 sol ∧
      s.solve = (⟨sol.stats, sol.run.conflicts s⟩, s.commit sol.run)) ∧
    s.solve.1.stats.restarts ≤ s.deferred.length ∧
    (∀ x, s.value x ≤ s.solve.2.value x) ∧
    s.solve.1.stats.assignments ≤ Run.steps s s.value s.solve.2.value ∧
    Run.steps s s.value s.solve.2.value ≤ 3 * s.atoms.size ∧
    s.solve.1.stats.iterations ≤ 4 * s.atoms.size * (s.solve.1.stats.restarts + 1) ∧
    ∀ key region, s.value key = .wild → ∃ sol,
      (s.released key (s.regionAround key region)).Accepts (s.regionAround key region) [] 0 0 sol ∧
      (s.makeNonWild key region).2 = (s.released key (s.regionAround key region)).commit sol.run := by
  have haccepts := accepts_solution s s.atoms.keys
  obtain ⟨hrounds, hrestarts, hiterations⟩ := haccepts.cost
  have hsize : s.atoms.keys.length = s.atoms.size := s.atoms.size_eq.symm
  have hopen : (s.unblocked []).length ≤ s.deferred.length := List.length_filter_le _ _
  have hcounted : (s.solution s.atoms.keys).run.Counted := by
    rw [solution_eq_round]
    exact Run.counted_round ..
  refine ⟨⟨_, haccepts, rfl⟩, ?_, hrounds.entry.rises, hcounted.trans_le hrounds.moves_le, Run.steps_le .., ?_, ?_⟩
  · show (s.solution s.atoms.keys).restarts ≤ _
    omega
  · show (s.solution s.atoms.keys).iterations ≤ 4 * _ * ((s.solution s.atoms.keys).restarts + 1)
    rw [hsize, show s.atoms.size + 3 * s.atoms.size = 4 * s.atoms.size by omega] at hiterations
    omega
  · exact fun key region hkey => ⟨_, accepts_solution _ _, makeNonWild_of_wild hkey region⟩

end Store

end PointerKinds
