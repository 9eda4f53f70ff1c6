/-
The constraint remembered for an unchecked atom is a reason for it.

An implication inside a constraint passes its conclusion on only while its premise is true,
and the equality at the end of the way in is what raises an atom.  It makes the atom
unchecked by itself, or because its other side was unchecked already.  So the atoms can be
numbered such that every number is greater than that of the other side, and than that of an
atom which a premise on the way in asks to be unchecked: an atom gets its number when it
becomes unchecked, and nothing made unchecked before depends on it.

A premise on the way in was true when the atom was raised, and has to be true in the end.
One that is final stays true.  Any other belongs to an implication that was fired, and the
accepted round leaves no fired implication stale.
-/
import PointerKinds.Proofs.Solver.Edits
import PointerKinds.Proofs.Store.Built

namespace PointerKinds

namespace Formula

/-- The premises passed on the way in, the outermost first. -/
def premises : Formula → List Formula
  | implies premise conclusion => premise :: conclusion.premises
  | _ => []

/-- A formula makes an atom unchecked, by itself or because another atom is. -/
inductive Grounds (E : AtomKey → Kind) (rank : AtomKey → Nat) (x : AtomKey) : Formula → Prop
  | pin : Grounds E rank x (pin x .wild)
  | join {y : AtomKey} (hy : E y = .wild) (hlt : rank y < rank x) : Grounds E rank x (join x y)
  | joinBack {y : AtomKey} (hy : E y = .wild) (hlt : rank y < rank x) : Grounds E rank x (join y x)

/-- What is unchecked for a reason stays so as long as the unchecked atoms do. -/
theorem Grounds.mono {E F : AtomKey → Kind} {rank rank' : AtomKey → Nat} {x : AtomKey} {f : Formula}
    (h : f.Grounds E rank x) (hwild : ∀ y, E y = .wild → F y = .wild ∧ rank' y = rank y)
    (hx : rank' x = rank x) : f.Grounds F rank' x := by
  cases h with
  | pin => exact .pin
  | join hy hlt => exact .join (hwild _ hy).1 (by rwa [(hwild _ hy).2, hx])
  | joinBack hy hlt => exact .joinBack (hwild _ hy).1 (by rwa [(hwild _ hy).2, hx])

end Formula

namespace Run

variable {s : Store} {run run' : Run} {blocked : List Formula} {seeds : List AtomKey} {f : Formula}
  {x : AtomKey} {k : Kind}

/-! ### The way in -/

/-- The run passes every implication on the way into a formula: its premise is true for good,
or the run committed itself to it. -/
def Passes (run : Run) : Formula → Prop
  | .implies premise conclusion =>
    (premise.isFinal = true ∧ premise.truth run.value = .yes ∨
      .implies premise conclusion ∈ run.fired) ∧ run.Passes conclusion
  | _ => True

theorem truth_of_isFinal {p : Formula} (hfinal : p.isFinal = true) (hle : ∀ y, run.value y ≤ run'.value y)
    (h : p.truth run.value = .yes) : p.truth run'.value = .yes := by
  unfold Formula.isFinal at hfinal
  split at hfinal
  · exact h
  · obtain rfl := of_decide_eq_true hfinal
    rw [Formula.truth_atomKind_eq_yes] at h ⊢
    exact le_antisymm (Kind.le_wild _) (h ▸ hle _)
  · exact nomatch hfinal

theorem Passes.mono (hle : ∀ y, run.value y ≤ run'.value y) (hfired : run.fired ⊆ run'.fired)
    (h : run.Passes f) : run'.Passes f := by
  induction f with
  | eq | not => trivial
  | implies p c _ ih =>
      obtain ⟨⟨hfinal, htruth⟩ | hmem, hc⟩ := h
      · exact ⟨.inl ⟨hfinal, truth_of_isFinal hfinal hle htruth⟩, ih hc⟩
      · exact ⟨.inr (hfired hmem), ih hc⟩

/-- Once nothing is stale, every premise on a way in is true. -/
theorem Passes.truth (h : run.Passes f) (hstale : run.stale = []) :
    ∀ p ∈ f.premises, p.truth run.value = .yes := by
  induction f with
  | eq | not => exact fun p hp => absurd hp List.not_mem_nil
  | implies p c _ ih =>
      intro q hq
      rcases List.mem_cons.1 hq with rfl | hq
      · rcases h.1 with ⟨-, htruth⟩ | hmem
        · exact htruth
        · by_contra hne
          have hmem : Formula.implies q c ∈ run.stale := mem_stale.2 ⟨hmem, q, c, rfl, hne⟩
          rw [hstale] at hmem
          exact List.not_mem_nil hmem
      · exact ih h.2 q hq

/-- What asks an atom to be unchecked was let in, and asks by itself or for another atom. -/
theorem Asks.passes (h : run.Asks f x k) : run.Passes f ∧
    (f.core = .pin x k ∨ f.core = .eq (.kind k) (.atom x) ∨
      ∃ y, (f.core = .join x y ∨ f.core = .join y x) ∧ run.value y = k) := by
  induction h with
  | pin => exact ⟨trivial, .inl rfl⟩
  | pinned => exact ⟨trivial, .inr (.inl rfl)⟩
  | @left a b _ => exact ⟨trivial, .inr (.inr ⟨b, .inl rfl, rfl⟩)⟩
  | @right a b _ => exact ⟨trivial, .inr (.inr ⟨a, .inr rfl, rfl⟩)⟩
  | @passed p c key k hlive _ ih =>
      obtain ⟨hpasses, hcore⟩ := ih
      unfold isLive at hlive
      rw [Bool.and_eq_true, Bool.or_eq_true, List.contains_iff_mem, decide_eq_true_eq] at hlive
      exact ⟨⟨hlive.1.imp_left fun hfinal => ⟨hfinal, hlive.2⟩, hpasses⟩, hcore⟩

/-- What asks for anything has only true premises on the way in. -/
theorem Asks.truth_premises (h : run.Asks f x k) : ∀ p ∈ f.premises, p.truth run.value = .yes := by
  induction h with
  | pin | pinned | left | right => exact fun p hp => absurd hp List.not_mem_nil
  | passed hlive _ ih =>
      intro p hp
      rcases List.mem_cons.1 hp with rfl | hp
      · unfold isLive at hlive
        rw [Bool.and_eq_true, decide_eq_true_eq] at hlive
        exact hlive.2
      · exact ih p hp

/-! ### What a run remembers -/

/-- Exactly the unchecked atoms have a constraint remembered, and it is well-founded. -/
structure Founded (s : Store) (run : Run) : Prop where
  caused : ∀ x, (∃ id, run.forcedBy.get? x = some id) ↔ run.value x = .wild
  ranked : ∃ rank : AtomKey → Nat, ∀ x id, run.forcedBy.get? x = some id → ∃ f,
    (id, f) ∈ s.activeFormulas ∧ x ∈ f.mentions ∧ run.Passes f ∧ f.core.Grounds run.value rank x

/-- What made an atom unchecked let the kind in from atoms with lesser numbers. -/
structure Descends (run : Run) (rank : AtomKey → Nat) (x : AtomKey) (f : Formula) : Prop where
  mention : x ∈ f.mentions
  passes : run.Passes f
  grounds : f.core.Grounds run.value rank x
  premise : ∀ y, .pin y .wild ∈ f.premises → run.value y = .wild ∧ rank y < rank x

theorem Descends.mono {rank rank' : AtomKey → Nat} (h : run.Descends rank x f)
    (hle : ∀ y, run.value y ≤ run'.value y) (hfired : run.fired ⊆ run'.fired)
    (hwild : ∀ y, run.value y = .wild → run'.value y = .wild ∧ rank' y = rank y) (hx : rank' x = rank x) :
    run'.Descends rank' x f where
  mention := h.mention
  passes := h.passes.mono hle hfired
  grounds := h.grounds.mono hwild hx
  premise y hy := by
    obtain ⟨hyes, hlt⟩ := h.premise y hy
    exact ⟨(hwild y hyes).1, by rwa [(hwild y hyes).2, hx]⟩

/-- What asks an atom to be unchecked lets the kind in from atoms that are: any number above theirs
will do. -/
theorem Asks.descends {rank : AtomKey → Nat} (hask : run.Asks f x .wild) (hnormal : f.core.IsNormal)
    (hle : ∀ y, run.value y ≤ run'.value y) (hfired : run.fired ⊆ run'.fired)
    (hlt : ∀ y, run.value y = .wild → run'.value y = .wild ∧ rank y < rank x) : run'.Descends rank x f := by
  obtain ⟨hpasses, hcore⟩ := hask.passes
  refine ⟨hask.mem_mentions, hpasses.mono hle hfired, ?_, fun y hy => ?_⟩
  · rcases hcore with he | he | ⟨y, he | he, hy⟩
    · exact he ▸ .pin
    · exact (he ▸ hnormal : Formula.IsNormal (.eq (.kind .wild) (.atom x))).elim
    · exact he ▸ .join (hlt y hy).1 (hlt y hy).2
    · exact he ▸ .joinBack (hlt y hy).1 (hlt y hy).2
  · exact hlt y (Formula.truth_atomKind_eq_yes.1 (hask.truth_premises _ hy))

/-- Exactly the unchecked atoms have a constraint remembered, one of a given sort; and they are
numbered in the order in which they became unchecked. -/
structure FoundedIn (F : ConstraintId → Formula → Prop) (run : Run) : Prop where
  caused : Caused run
  ranked : ∃ (rank : AtomKey → Nat) (n : Nat), (∀ y, run.value y = .wild → rank y < n) ∧
    ∀ x id, run.forcedBy.get? x = some id → ∃ f, F id f ∧ run.Descends rank x f

variable {F : ConstraintId → Formula → Prop}

theorem founded_start_reset (s : Store) : FoundedIn F (Run.start s.reset) := by
  have hptr : ∀ x, (Run.start s.reset).value x = .ptr := Store.value_reset s
  refine ⟨fun x => ?_, fun _ => 0, 1, fun _ _ => Nat.one_pos, fun x id h => nomatch h⟩
  rw [hptr]
  constructor
  · rintro ⟨id, h⟩
    exact nomatch h
  · intro h
    exact nomatch h

theorem FoundedIn.mono (h : FoundedIn F run) (hcauses : run'.forcedBy = run.forcedBy)
    (hwild : ∀ y, run'.value y = .wild ↔ run.value y = .wild) (hle : ∀ y, run.value y ≤ run'.value y)
    (hfired : run.fired ⊆ run'.fired) : FoundedIn F run' := by
  obtain ⟨rank, n, hbound, hrank⟩ := h.ranked
  refine ⟨fun x => ?_, rank, n, fun y hy => hbound y ((hwild y).1 hy), fun x id hx => ?_⟩
  · rw [hcauses, hwild, h.caused]
  · obtain ⟨f, hf, hdescends⟩ := hrank x id (hcauses ▸ hx)
    exact ⟨f, hf, hdescends.mono hle hfired (fun y hy => ⟨(hwild y).2 hy, rfl⟩) rfl⟩

theorem FoundedIn.visit (h : FoundedIn F run) : FoundedIn F { run with iterations := run.iterations + 1 } :=
  h.mono rfl (fun _ => Iff.rfl) (fun _ => le_refl _) (List.Subset.refl _)

theorem FoundedIn.commit (h : FoundedIn F run) (f : Formula) : FoundedIn F (run.commitTo f) :=
  h.mono rfl (fun _ => Iff.rfl) (fun _ => le_refl _) (List.subset_append_left _ _)

/-- An atom that becomes unchecked gets the next number. -/
theorem FoundedIn.raise (h : FoundedIn F run) {id : ConstraintId} (hf : F id f) (hnormal : f.core.IsNormal)
    (hask : run.Asks f x k) : FoundedIn F (run.raise s id x k).2 := by
  have hle := fun y => le_value_raise s id run x y k
  have hfired : run.fired ⊆ (run.raise s id x k).2.fired := (fired_raise s id run x k).symm ▸ List.Subset.refl _
  have hcaused : ∀ y i, run.forcedBy.get? y = some i → run.value y = .wild := fun y i hy => (h.caused y).1 ⟨i, hy⟩
  rcases get?_forcedBy_raise hcaused s id x k with ⟨hcauses, hval⟩ | ⟨hx, rfl, -, hget, hval⟩
  · exact h.mono hcauses hval hle hfired
  obtain ⟨rank, n, hbound, hrank⟩ := h.ranked
  obtain ⟨rank', hself, hother⟩ : ∃ rank' : AtomKey → Nat, rank' x = n ∧ ∀ y, y ≠ x → rank' y = rank y :=
    ⟨fun y => if y = x then n else rank y, if_pos rfl, fun _ hy => if_neg hy⟩
  have hwild : ∀ y, run.value y = .wild → (run.raise s id x .wild).2.value y = .wild ∧ rank' y = rank y := fun y hy =>
    ⟨(hval y).2 (.inr hy), hother y fun e => hx (e ▸ hy)⟩
  have hdescends : (run.raise s id x .wild).2.Descends rank' x f := by
    refine hask.descends hnormal hle hfired fun y hy => ⟨(hwild y hy).1, ?_⟩
    rw [(hwild y hy).2, hself]
    exact hbound y hy
  refine ⟨h.caused.raise s id x .wild, rank', n + 1, fun y hy => ?_, fun y i hi => ?_⟩
  · rcases (hval y).1 hy with rfl | hy
    · exact hself ▸ Nat.lt_succ_self n
    · exact (hwild y hy).2 ▸ Nat.lt_succ_of_lt (hbound y hy)
  · rw [hget] at hi
    by_cases hyx : y = x
    · rw [if_pos hyx] at hi
      obtain rfl := Option.some.inj hi
      exact ⟨f, hf, hyx ▸ hdescends⟩
    · rw [if_neg hyx] at hi
      obtain ⟨g, hg, hdescends⟩ := hrank y i hi
      exact ⟨g, hg, hdescends.mono hle hfired hwild (hother y hyx)⟩

theorem FoundedIn.promote (h : FoundedIn F run) : FoundedIn F (run.promote (run.promotions s)) :=
  h.mono (forcedBy_promote ..) (value_promote_eq_wild_iff s run) (le_value_promotions run)
    ((fired_promote ..).symm ▸ List.Subset.refl _)

theorem FoundedIn.founded (h : FoundedIn (fun id f => (id, f) ∈ s.activeFormulas) run) : Founded s run := by
  obtain ⟨rank, -, -, hrank⟩ := h.ranked
  refine ⟨h.caused, rank, fun x id hx => ?_⟩
  obtain ⟨f, hf, hdescends⟩ := hrank x id hx
  exact ⟨f, hf, hdescends.mention, hdescends.passes, hdescends.grounds⟩

theorem founded_round (hs : s.Indexed) (hprimed : Primed s seeds)
    (hnormal : ∀ c ∈ s.activeFormulas, c.2.core.IsNormal)
    (h : FoundedIn (fun id f => (id, f) ∈ s.activeFormulas) (Run.start s))
    (blocked : List Formula) : Founded s (round s seeds blocked) := by
  refine (round_keeps hs hprimed blocked h (fun r r' hact hr => ?_) fun _ hr => hr.promote).founded
  cases hact with
  | visit => exact hr.visit
  | raise hf hask => exact hr.raise hf (hnormal _ hf) hask
  | @fire _ f _ _ _ => exact hr.commit f

end Run

namespace Store

variable {s : Store}

/-- **Whatever an atom is unchecked for is a reason.**  After solving from checked pointers,
exactly the unchecked atoms have a constraint remembered.  It is in force and mentions the
atom; every premise on the way into it is true; and what is inside makes the atom
unchecked by itself, or because of an unchecked atom with a lesser number.  So an
implication whose premise is not true is remembered for nobody. -/
theorem forcedBy_grounded (hs : s.Built) :
    let t := s.reset.solve.2
    (∀ x, (∃ id, t.forcedBy.get? x = some id) ↔ t.value x = .wild) ∧
    (∃ rank : AtomKey → Nat, ∀ x id, t.forcedBy.get? x = some id → ∃ f,
      (id, f) ∈ t.activeFormulas ∧ x ∈ f.mentions ∧ (∀ p ∈ f.premises, p.truth t.value = .yes) ∧
        f.core.Grounds t.value rank x) ∧
    ∀ id p c, t.formula? id = some (.implies p c) → p.truth t.value ≠ .yes →
      ∀ x, t.forcedBy.get? x ≠ some id := by
  have hindexed := hs.indexed.reset
  have hnormal : ∀ c ∈ s.reset.activeFormulas, c.2.core.IsNormal := fun c hc =>
    hs.isNormal_core (mem_activeFormulas.1 hc).2
  have hprimed := primed_keys hindexed
  obtain ⟨hrun, hstale, -⟩ := solution_spec hindexed hprimed
  have hfounded := Run.founded_round hindexed hprimed hnormal (Run.founded_start_reset s)
    (s.reset.solution s.reset.atoms.keys).blocked
  rw [← hrun] at hfounded
  obtain ⟨rank, hrank⟩ := hfounded.ranked
  have hgrounds : ∀ x id, s.reset.solve.2.forcedBy.get? x = some id → ∃ f,
      (id, f) ∈ s.reset.solve.2.activeFormulas ∧ x ∈ f.mentions ∧
        (∀ p ∈ f.premises, p.truth s.reset.solve.2.value = .yes) ∧
        f.core.Grounds s.reset.solve.2.value rank x := by
    intro x id hx
    obtain ⟨f, hf, hmem, hpasses, hcore⟩ := hrank x id hx
    exact ⟨f, hf, hmem, hpasses.truth hstale, hcore⟩
  refine ⟨hfounded.caused, ⟨rank, hgrounds⟩, fun id p c hformula hne x hx => ?_⟩
  obtain ⟨f, hf, -, hpremises, -⟩ := hgrounds x id hx
  obtain rfl := Option.some.inj (hformula.symm.trans (mem_activeFormulas.1 hf).2)
  exact hne (hpremises p List.mem_cons_self)

/-! ### A concrete store -/

/-- Two atoms are unchecked by themselves, and one of them makes a third one so if the other is. -/
def nested : Store :=
  let s := (({} : Store).addEq (.atom 0) (.kind .wild)).2
  let s := (s.addEq (.atom 1) (.kind .wild)).2
  let s := (s.createEq (.atom 1) (.atom 2)).2
  let s := ((s.createImplies? 1 2).getD (0, s)).2
  let s := ((s.createImplies? 0 3).getD (0, s)).2
  s.add 4

theorem nested_built : nested.Built :=
  (((((Built.empty.addEq _ _ _).addEq _ _ _).createEq _ _ _).getD_createImplies? 1 2).getD_createImplies? 0
    3).add 4

/-- What is inside two implications is remembered for the third atom, and both premises are true. -/
theorem nested_grounded : nested.Built ∧ nested.reset.solve.2.forcedBy.get? 2 = some 4 ∧
    ∃ (rank : AtomKey → Nat) (f : Formula), (4, f) ∈ nested.reset.solve.2.activeFormulas ∧
      (∀ p ∈ f.premises, p.truth nested.reset.solve.2.value = .yes) ∧
      f.core.Grounds nested.reset.solve.2.value rank 2 := by
  obtain ⟨-, ⟨rank, hrank⟩, -⟩ := forcedBy_grounded nested_built
  have hcause : nested.reset.solve.2.forcedBy.get? 2 = some 4 := by decide
  obtain ⟨f, hf, -, hpremises, hcore⟩ := hrank 2 4 hcause
  exact ⟨nested_built, hcause, rank, f, hf, hpremises, hcore⟩

end Store

end PointerKinds
