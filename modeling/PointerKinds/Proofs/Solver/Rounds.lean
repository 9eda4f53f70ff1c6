/-
From acts to rounds, and from rounds to the accepted one.

A round is two phases of acts with the promotions between them.  At the end of each
phase everything is settled and nothing waits, which takes a bound on the firings: each
takes one formula off those in force that were not fired.

Rounds are run until one leaves nothing stale.  A formula is blocked only because some
round fired it and left it stale, and a blocked formula is not fired again, so there are
no more rounds than formulas in force; the last of them is the accepted one.
-/
import PointerKinds.Proofs.Solver.Queue
import PointerKinds.Solver.Solve

namespace PointerKinds

namespace Run

variable {s : Store} {run run' : Run} {blocked : List Formula} {f : Formula}

/-! ### Firing -/

theorem isWaiting_iff : run.isWaiting blocked f = true ↔ ∃ p c, f = .implies p c ∧ p.isFinal = false ∧
    f ∉ run.fired ∧ f ∉ blocked ∧ p.truth run.value = .yes ∧ c.holds run.value = false := by
  unfold isWaiting
  cases f with
  | eq | not => simp
  | implies p c => simp [and_assoc]

/-- Right after an implication is fired, applying it is applying its conclusion. -/
theorem apply_commitTo {p c : Formula} (id : ConstraintId)
    (hwait : run.isWaiting blocked (.implies p c) = true) :
    (run.commitTo (.implies p c)).apply s id (.implies p c) =
      (run.commitTo (.implies p c)).apply s id c := by
  obtain ⟨p', c', he, -, -, -, htruth, -⟩ := isWaiting_iff.1 hwait
  obtain ⟨rfl, rfl⟩ := Formula.implies.inj he
  have hlive : (run.commitTo (.implies p c)).isLive (.implies p c) p = true := by
    unfold isLive
    rw [value_commitTo, htruth]
    simp [mem_fired_commitTo]
  rw [Run.apply, if_pos hlive]

theorem fire_implies (s : Store) (run : Run) (id : ConstraintId) (p c : Formula) :
    run.fire s id (.implies p c) = ((run.commitTo (.implies p c)).apply s id c).1.elim
      ((run.commitTo (.implies p c)).apply s id c).2
      fun key => ((run.commitTo (.implies p c)).apply s id c).2.propagate s [key] := by
  simp only [fire, commitTo]
  rcases Run.apply s id { run with fired := run.fired ++ [.implies p c] } c with ⟨_ | key, after⟩ <;> rfl

theorem acts_fire (hs : s.Indexed) {id : ConstraintId} (hf : (id, f) ∈ s.activeFormulas)
    (hwait : run.isWaiting blocked f = true) :
    Acts s blocked (run.commitTo f) (run.fire s id f) := by
  obtain ⟨p, c, rfl, -⟩ := isWaiting_iff.1 hwait
  have happly := apply_commitTo (s := s) id hwait
  have happlied : Acts s blocked (run.commitTo (.implies p c))
      ((run.commitTo (.implies p c)).apply s id c).2 := by
    rw [← happly]
    rcases apply_cases s id (run.commitTo (.implies p c)) (.implies p c) with ⟨e, -⟩ | ⟨key, k, hask, e⟩
    · rw [e]
    · rw [e]
      exact .single (.raise hf hask)
  rw [fire_implies]
  rcases hmove : (run.commitTo (.implies p c)).apply s id c with ⟨_ | moved, after⟩
  · rwa [hmove] at happlied
  · rw [hmove] at happlied
    exact happlied.trans (acts_propagate hs after [moved])

/-- Firing answers the implication, and leaves pending only what mentions the atom it moves. -/
theorem Pending.fire {Q : Run → ConstraintId → AtomKey → Kind → Prop} (hQ : Answers s Q) (hs : s.Indexed)
    {id : ConstraintId} {p c : Formula} (hwait : run.isWaiting blocked (.implies p c) = true)
    (hsame : ∀ id', (id', .implies p c) ∈ s.activeFormulas → ∀ run key k, Q run id key k → Q run id' key k)
    (h : Pending s Q run []) :
    Pending s Q ((run.commitTo (.implies p c)).apply s id c).2
      ((run.commitTo (.implies p c)).apply s id c).1.toList := by
  have happly := apply_commitTo (s := s) id hwait
  have hother : ∀ g, g ≠ .implies p c →
      ((run.commitTo (.implies p c)).apply s id c).2.fired.contains g = run.fired.contains g := by
    intro g hg
    rw [fired_apply, Bool.eq_iff_iff, List.contains_iff_mem, List.contains_iff_mem, mem_fired_commitTo]
    exact or_iff_left hg
  have hrefusals := contains_refusals_apply s id (run.commitTo (.implies p c)) c
  intro d hd hflat
  have hold := h.answered hd hflat
  cases hmove : ((run.commitTo (.implies p c)).apply s id c).1 with
  | none =>
      rw [← happly] at hmove
      have hval := value_apply_of_none hmove
      by_cases hdf : d.2 = .implies p c
      · obtain ⟨id', f⟩ := d
        obtain rfl : f = .implies p c := hdf
        have hanswered := hQ.apply (c := (id, .implies p c))
          (fun x hx => hs.contains_of_mem hd hx) hflat hmove
        rw [happly] at hanswered
        exact .inl fun key k hask => hsame id' hd _ key k (hanswered key k hask)
      · rw [happly] at hval
        exact .inl (hold.congr hQ hflat (fun x _ => congrFun hval x) (hother d.2 hdf) hrefusals)
  | some moved =>
      rw [← happly] at hmove
      obtain ⟨hmem, -, -, hval⟩ := apply_of_some hmove
      rw [happly] at hval
      by_cases hd' : moved ∈ d.2.mentions
      · exact .inr ⟨moved, hd', List.mem_singleton_self moved⟩
      · have hdf : d.2 ≠ .implies p c := fun e => hd' (e ▸ hmem)
        exact .inl (hold.congr hQ hflat (fun x hx => hval x fun e => hd' (e ▸ hx)) (hother d.2 hdf) hrefusals)

/-- Firing settles the implication and unsettles nothing else. -/
theorem calm_fire (hs : s.Indexed) {id : ConstraintId} (hwait : run.isWaiting blocked f = true)
    (hcalm : Calm s run) : Calm s (run.fire s id f) := by
  obtain ⟨p, c, rfl, -⟩ := isWaiting_iff.1 hwait
  have hpending : Pending s _ ((run.commitTo (.implies p c)).apply s id c).2 _ :=
    (owed_iff_pending.1 (owed_nil_iff.2 hcalm)).fire (answers_meets s) hs hwait fun _ _ _ _ _ hmeets => hmeets
  rw [fire_implies]
  generalize (run.commitTo (.implies p c)).apply s id c = r at hpending ⊢
  obtain ⟨_ | moved, after⟩ := r
  · exact owed_nil_iff.1 (owed_iff_pending.2 hpending)
  · exact Owed.propagate hs (owed_iff_pending.2 hpending)

/-! ### Firing comes to an end -/

/-- How many of the constraints in force say something that is not on a list. -/
def outside (s : Store) (l : List Formula) : Nat :=
  (s.activeFormulas.filter fun c => !l.contains c.2).length

theorem outside_le (s : Store) (l : List Formula) : outside s l ≤ s.active.length :=
  le_trans (List.length_filter_le _ _) (List.length_filterMap_le _ _)

theorem length_filter_not_contains_lt {L : List (ConstraintId × Formula)} {l l' : List Formula}
    (hsub : l ⊆ l') {c : ConstraintId × Formula} (hc : c ∈ L) (hnot : c.2 ∉ l) (hmem : c.2 ∈ l') :
    (L.filter fun c => !l'.contains c.2).length < (L.filter fun c => !l.contains c.2).length := by
  have hfilter : (L.filter fun c => !l'.contains c.2) =
      (L.filter fun c => !l.contains c.2).filter fun c => !l'.contains c.2 := by
    rw [List.filter_filter]
    refine List.filter_congr fun d _ => ?_
    by_cases hd : d.2 ∈ l
    · simp [hd, hsub hd]
    · simp [hd]
  rw [hfilter, List.length_filter_lt_length_iff_exists]
  exact ⟨c, by simp [hc, hnot], by simp [hmem]⟩

theorem outside_lt {l l' : List Formula} (hsub : l ⊆ l') {c : ConstraintId × Formula}
    (hc : c ∈ s.activeFormulas) (hnot : c.2 ∉ l) (hmem : c.2 ∈ l') : outside s l' < outside s l :=
  length_filter_not_contains_lt hsub hc hnot hmem

theorem mem_of_waiting?_eq_some {id : ConstraintId} (h : run.waiting? s blocked = some (id, f)) :
    (id, f) ∈ s.activeFormulas ∧ run.isWaiting blocked f = true := by
  refine ⟨List.mem_of_find?_eq_some h, ?_⟩
  unfold waiting? at h
  exact List.find?_some (p := fun c : ConstraintId × Formula => run.isWaiting blocked c.2) h

/-- Firing takes a formula off those that were not fired. -/
theorem outside_fired_lt {id : ConstraintId} (h : run.waiting? s blocked = some (id, f))
    {fired : List Formula} (hsub : run.fired ++ [f] ⊆ fired) : outside s fired < outside s run.fired := by
  obtain ⟨hf, hwait⟩ := mem_of_waiting?_eq_some h
  obtain ⟨-, -, -, -, hnot, -⟩ := isWaiting_iff.1 hwait
  exact outside_lt (fun g hg => hsub (List.mem_append_left _ hg)) hf hnot (hsub (by simp))

/-- Everything is settled and nothing waits. -/
structure AtRest (s : Store) (blocked : List Formula) (run : Run) : Prop where
  calm : Calm s run
  idle : ∀ f, s.InForce f → run.isWaiting blocked f = false

theorem AtRest.of_waiting?_eq_none (hcalm : Calm s run) (h : run.waiting? s blocked = none) :
    AtRest s blocked run where
  calm := hcalm
  idle f hf := by
    obtain ⟨id, hf⟩ := hf
    simpa using List.find?_eq_none.1 h (id, f) hf

theorem fireAll_spec (hs : s.Indexed) (blocked : List Formula) (fuel : Nat) (hfuel : outside s run.fired ≤ fuel)
    (hcalm : Calm s run) :
    Acts s blocked run (fireAll s blocked fuel run) ∧ AtRest s blocked (fireAll s blocked fuel run) := by
  induction fuel generalizing run with
  | zero =>
      refine ⟨.refl, .of_waiting?_eq_none hcalm (Option.eq_none_iff_forall_ne_some.2 fun c hnext => ?_)⟩
      have hnext : run.waiting? s blocked = some c := hnext
      have hlt := outside_fired_lt hnext (fun _ hg => hg)
      omega
  | succ fuel ih =>
      rw [fireAll]
      cases hnext : run.waiting? s blocked with
      | none => exact ⟨.refl, .of_waiting?_eq_none hcalm hnext⟩
      | some c =>
          obtain ⟨id, f⟩ := c
          obtain ⟨hf, hwait⟩ := mem_of_waiting?_eq_some hnext
          have hacts := acts_fire hs hf hwait
          have hless := outside_fired_lt hnext hacts.fired_subset
          have hbound : outside s (run.fire s id f).fired ≤ fuel := by omega
          obtain ⟨hrest, hend⟩ := ih hbound (calm_fire hs hwait hcalm)
          exact ⟨.head (.fire hf hwait hcalm) (hacts.trans hrest), hend⟩

/-- A phase is made of acts and ends at rest. -/
theorem settle_spec (hs : s.Indexed) {seeds : List AtomKey} (howed : Owed s run seeds) :
    Acts s blocked run (run.settle s blocked seeds) ∧ AtRest s blocked (run.settle s blocked seeds) := by
  obtain ⟨hacts, hrest⟩ := fireAll_spec hs blocked s.active.length (outside_le s _)
    (howed.propagate hs)
  exact ⟨(acts_propagate hs run seeds).trans hacts, hrest⟩

/-! ### Promotions -/

theorem foldl_assign_spec (keys : List AtomKey) (run : Run) :
    let after := keys.foldl (fun run key => run.assign key .ntArr none) run
    (∀ x, after.value x = if x ∈ keys then .ntArr else run.value x) ∧ after.fired = run.fired ∧
      after.forcedBy = run.forcedBy ∧ after.refusals = run.refusals ∧ after.assignments = run.assignments ∧
      after.promoted = run.promoted := by
  induction keys generalizing run with
  | nil => simp
  | cons key rest ih =>
      obtain ⟨hval, hrest⟩ := ih (run.assign key .ntArr none)
      refine ⟨fun x => ?_, hrest⟩
      rw [List.foldl_cons, hval, value_assign]
      by_cases hx : x = key <;> simp [hx]

theorem value_promote (run : Run) (keys : List AtomKey) (x : AtomKey) :
    (run.promote keys).value x = if x ∈ keys then .ntArr else run.value x :=
  (foldl_assign_spec keys run).1 x

theorem fired_promote (run : Run) (keys : List AtomKey) : (run.promote keys).fired = run.fired :=
  (foldl_assign_spec keys run).2.1

theorem forcedBy_promote (run : Run) (keys : List AtomKey) :
    (run.promote keys).forcedBy = run.forcedBy :=
  (foldl_assign_spec keys run).2.2.1

theorem refusals_promote (run : Run) (keys : List AtomKey) :
    (run.promote keys).refusals = run.refusals :=
  (foldl_assign_spec keys run).2.2.2.1

theorem assignments_promote (run : Run) (keys : List AtomKey) :
    (run.promote keys).assignments = run.assignments + keys.length :=
  congrArg (· + keys.length) (foldl_assign_spec keys run).2.2.2.2.1

theorem promoted_promote (run : Run) (keys : List AtomKey) :
    (run.promote keys).promoted = run.promoted + keys.length :=
  congrArg (· + keys.length) (foldl_assign_spec keys run).2.2.2.2.2

theorem mem_promotions {key : AtomKey} (h : key ∈ run.promotions s) :
    run.value key = .arr ∧ (run.component s key).any (wantsPromotion s) = true ∧
      (run.component s key).any (blocksPromotion s) = false := by
  obtain ⟨harr, htest⟩ := List.mem_filter.1 h
  obtain ⟨-, harr⟩ := List.mem_filter.1 harr
  simp only [Bool.and_eq_true, Bool.not_eq_true'] at htest
  exact ⟨of_decide_eq_true harr, htest⟩

theorem le_value_promotions (run : Run) (x : AtomKey) :
    run.value x ≤ (run.promote (run.promotions s)).value x := by
  rw [value_promote]
  split
  · rename_i hx
    rw [(mem_promotions hx).1]
    decide
  · exact le_refl _

/-- Promoting atoms leaves pending only what mentions one of them. -/
theorem Pending.promote {Q : Run → ConstraintId → AtomKey → Kind → Prop} (hQ : Answers s Q)
    (h : Pending s Q run []) (keys : List AtomKey) : Pending s Q (run.promote keys) keys := by
  intro c hc hflat
  by_cases hmem : ∃ key ∈ c.2.mentions, key ∈ keys
  · exact .inr hmem
  · refine .inl ((h.answered hc hflat).congr hQ hflat (fun x hx => ?_) (by rw [fired_promote]) ?_)
    · rw [value_promote, if_neg fun hk => hmem ⟨x, hx, hk⟩]
    · intro site hsite
      rwa [refusals_promote]

/-- Promoting atoms unsettles only what mentions one of them. -/
theorem Calm.promote (h : Calm s run) (keys : List AtomKey) : Owed s (run.promote keys) keys :=
  owed_iff_pending.2 ((owed_iff_pending.1 (owed_nil_iff.2 h)).promote (answers_meets s) keys)

/-! ### Rounds -/

/-- The first phase of a round, before the preferences. -/
def hard (s : Store) (seeds : List AtomKey) (blocked : List Formula) : Run :=
  (Run.start s).settle s blocked seeds

/-- The run right after the promotions of a round. -/
def softened (s : Store) (seeds : List AtomKey) (blocked : List Formula) : Run :=
  (hard s seeds blocked).promote ((hard s seeds blocked).promotions s)

/-- The seeds reach everything that the starting kinds leave unsettled. -/
def Primed (s : Store) (seeds : List AtomKey) : Prop := Owed s (Run.start s) seeds

variable {seeds : List AtomKey}

theorem hard_spec (hs : s.Indexed) (h : Primed s seeds) (blocked : List Formula) :
    Acts s blocked (Run.start s) (hard s seeds blocked) ∧ AtRest s blocked (hard s seeds blocked) :=
  settle_spec hs h

theorem round_spec (hs : s.Indexed) (h : Primed s seeds) (blocked : List Formula) :
    Acts s blocked (softened s seeds blocked) (round s seeds blocked) ∧
      AtRest s blocked (round s seeds blocked) :=
  settle_spec hs ((hard_spec hs h blocked).2.calm.promote _)

/-- What acts keep and promotions keep, holds at the end of a round. -/
theorem round_keeps {P : Run → Prop} (hs : s.Indexed) (h : Primed s seeds) (blocked : List Formula)
    (hstart : P (Run.start s)) (hact : ∀ r r', Act s blocked r r' → P r → P r')
    (hpromote : ∀ r, P r → P (r.promote (r.promotions s))) : P (round s seeds blocked) :=
  (round_spec hs h blocked).1.keeps hact
    (hpromote _ ((hard_spec hs h blocked).1.keeps hact hstart))

theorem hard_le_round (hs : s.Indexed) (h : Primed s seeds) (blocked : List Formula) (x : AtomKey) :
    (hard s seeds blocked).value x ≤ (round s seeds blocked).value x :=
  le_trans (le_value_promotions _ x) ((round_spec hs h blocked).1.le_value x)

/-- What a run was committed to is in force, not blocked, and was waiting when it was
fired. -/
structure Committed (s : Store) (blocked : List Formula) (run : Run) : Prop where
  inForce : ∀ f ∈ run.fired, s.InForce f
  allowed : ∀ f ∈ run.fired, f ∉ blocked
  reached : ∀ f ∈ run.fired, ∀ a k c, f = .implies (.eq (.atom a) (.kind k)) c → k ≤ run.value a

theorem Committed.act (h : Committed s blocked run) (hact : Act s blocked run run') :
    Committed s blocked run' := by
  cases hact with
  | visit => exact ⟨h.inForce, h.allowed, h.reached⟩
  | raise =>
      refine ⟨fun f hf => ?_, fun f hf => ?_, fun f hf a k c he => ?_⟩
      · exact h.inForce f (by rwa [fired_raise] at hf)
      · exact h.allowed f (by rwa [fired_raise] at hf)
      · exact le_trans (h.reached f (by rwa [fired_raise] at hf) a k c he) (le_value_raise ..)
  | fire hf hwait =>
      obtain ⟨p, c, rfl, -, -, hopen, htruth, -⟩ := isWaiting_iff.1 hwait
      refine ⟨fun g hg => ?_, fun g hg => ?_, fun g hg a k c' he => ?_⟩ <;>
        rcases mem_fired_commitTo.1 hg with hg | rfl
      · exact h.inForce g hg
      · exact ⟨_, hf⟩
      · exact h.allowed g hg
      · exact hopen
      · exact h.reached g hg a k c' he
      · obtain ⟨rfl, -⟩ := Formula.implies.inj he
        exact le_of_eq (Formula.truth_atomKind_eq_yes.1 htruth).symm

theorem committed_start (s : Store) (blocked : List Formula) : Committed s blocked (Run.start s) where
  inForce _ hf := absurd hf List.not_mem_nil
  allowed _ hf := absurd hf List.not_mem_nil
  reached _ hf := absurd hf List.not_mem_nil

theorem Committed.promote (h : Committed s blocked run) :
    Committed s blocked (run.promote (run.promotions s)) := by
  refine ⟨?_, ?_, fun f hf a k c he => ?_⟩
  · rw [fired_promote]
    exact h.inForce
  · rw [fired_promote]
    exact h.allowed
  · rw [fired_promote] at hf
    exact le_trans (h.reached f hf a k c he) (le_value_promotions run a)

theorem committed_softened (hs : s.Indexed) (h : Primed s seeds) (blocked : List Formula) :
    Committed s blocked (softened s seeds blocked) :=
  ((hard_spec hs h blocked).1.keeps (fun _ _ hact hr => hr.act hact) (committed_start s blocked)).promote

theorem committed_round (hs : s.Indexed) (h : Primed s seeds) (blocked : List Formula) :
    Committed s blocked (round s seeds blocked) :=
  (round_spec hs h blocked).1.keeps (fun _ _ hact hr => hr.act hact) (committed_softened hs h blocked)

theorem mem_stale : f ∈ run.stale ↔ f ∈ run.fired ∧ ∃ p c, f = .implies p c ∧ p.truth run.value ≠ .yes := by
  unfold stale
  rw [List.mem_filter]
  cases f <;> simp

end Run

namespace Store

variable {s : Store} {seeds : List AtomKey}

/-! ### The accepted round -/

/-- Blocking goes on until a round is left with nothing stale. -/
theorem accept_spec (hs : s.Indexed) (h : Run.Primed s seeds) (fuel : Nat) (blocked : List Formula)
    (iterations restarts : Nat) (hfuel : Run.outside s blocked ≤ fuel) :
    let sol := s.accept seeds fuel blocked iterations restarts
    sol.run = Run.round s seeds sol.blocked ∧ sol.run.stale = [] ∧
      ∀ f ∈ sol.blocked, f ∈ blocked ∨ ∃ B, f ∈ (Run.round s seeds B).stale := by
  induction fuel generalizing blocked iterations restarts with
  | zero =>
      refine ⟨rfl, List.eq_nil_iff_forall_not_mem.2 fun f hf => ?_, fun f hf => .inl hf⟩
      obtain ⟨hfired, -⟩ := Run.mem_stale.1 hf
      have hcommitted := Run.committed_round hs h blocked
      obtain ⟨id, hforce⟩ := hcommitted.inForce f hfired
      have hlt : Run.outside s (blocked ++ [f]) < Run.outside s blocked :=
        Run.outside_lt (List.subset_append_left _ _) hforce (hcommitted.allowed f hfired) (by simp)
      omega
  | succ fuel ih =>
      simp only [accept]
      split
      · rename_i hstale
        exact ⟨rfl, List.isEmpty_iff.1 hstale, fun f hf => .inl hf⟩
      · rename_i hstale
        obtain ⟨f, hf⟩ := List.exists_mem_of_ne_nil _ fun e => hstale (List.isEmpty_iff.2 e)
        obtain ⟨hfired, -⟩ := Run.mem_stale.1 hf
        have hcommitted := Run.committed_round hs h blocked
        obtain ⟨id, hforce⟩ := hcommitted.inForce f hfired
        have hlt : Run.outside s (blocked ++ (Run.round s seeds blocked).stale) < Run.outside s blocked :=
          Run.outside_lt (List.subset_append_left _ _) hforce (hcommitted.allowed f hfired) (by simp [hf])
        obtain ⟨hrun, hnil, hblocked⟩ := ih (blocked ++ (Run.round s seeds blocked).stale)
          (iterations + (Run.round s seeds blocked).iterations) (restarts + 1) (by omega)
        refine ⟨hrun, hnil, fun g hg => ?_⟩
        rcases hblocked g hg with hg | hg
        · exact (List.mem_append.1 hg).imp_right fun hg => ⟨blocked, hg⟩
        · exact .inr hg

/-- The accepted round leaves nothing stale, and what it may not fire some other round
left stale. -/
theorem solution_spec (hs : s.Indexed) (h : Run.Primed s seeds) :
    (s.solution seeds).run = Run.round s seeds (s.solution seeds).blocked ∧
      (s.solution seeds).run.stale = [] ∧
      ∀ f ∈ (s.solution seeds).blocked, ∃ B, f ∈ (Run.round s seeds B).stale := by
  obtain ⟨hrun, hstale, hblocked⟩ := accept_spec hs h s.active.length [] 0 0 (Run.outside_le s [])
  exact ⟨hrun, hstale, fun f hf => (hblocked f hf).resolve_left List.not_mem_nil⟩

/-- Visiting every atom reaches every formula that mentions one. -/
theorem primed_keys (hs : s.Indexed) : Run.Primed s s.atoms.keys :=
  Run.owed_iff_pending.2 (Run.pending_keys hs _)

end Store

end PointerKinds
