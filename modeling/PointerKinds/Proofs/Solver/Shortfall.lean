/-
An atom is kept below what an equality asks of it by its filter alone.

A request is answered, for this purpose, once the atom is up to it or a refusal of that very
constraint is on record for the atom.  A raise gives such an answer and only a move of the
atom takes it back, so at the end of every phase of a round nothing is pending under this
notion either, through firings, promotions and all.  Refusals of rejected rounds are lost
with them; the accepted round has made its own.

So the scan that completes a report never finds an equality unmet: whatever equality it
comes upon is one that a refusal speaks for.
-/
import PointerKinds.Proofs.Solver.Loops
import PointerKinds.Proofs.Solver.Report

namespace PointerKinds

namespace Formula

/-- An equality asks an atom to rise, at top level or under a guard that is passed. -/
inductive Shortfall (E : AtomKey → Kind) : Formula → AtomKey → Kind → Prop
  | pin {x : AtomKey} {k : Kind} (h : E x < k) : Shortfall E (pin x k) x k
  | left {a b : AtomKey} (h : E a < E b) : Shortfall E (join a b) a (E b)
  | right {a b : AtomKey} (h : E b < E a) : Shortfall E (join a b) b (E a)
  | guarded {x y : AtomKey} {l r : Operand} {k : Kind} (hx : E x = .wild)
      (h : Shortfall E (.eq l r) y k) : Shortfall E (guarded x (.eq l r)) y k

variable {E : AtomKey → Kind} {f : Formula} {y : AtomKey} {k : Kind}

theorem Shortfall.isFlat (h : f.Shortfall E y k) : f.IsFlat := by
  cases h <;> exact trivial

theorem Shortfall.lt (h : f.Shortfall E y k) : E y < k := by
  induction h with
  | pin h | left h | right h => exact h
  | guarded _ _ ih => exact ih

/-- A violated equality falls short at the top level. -/
theorem shortfall_of_violation? {key : Option AtomKey} {conflict : Conflict}
    (h : f.violation? E = some (key, conflict)) (hkind : conflict = .unequalAtoms ∨ conflict = .belowKind) :
    ∃ y k, f.Shortfall E y k := by
  cases f with
  | eq l r =>
      cases l <;> cases r <;> simp only [violation?, Option.ite_none_left_eq_some,
        Option.ite_none_right_eq_some, Option.some.injEq, Prod.mk.injEq, reduceCtorEq] at h
      case atom.atom a b =>
        rcases lt_or_gt_of_ne h.1 with hlt | hgt
        · exact ⟨a, E b, .left hlt⟩
        · exact ⟨b, E a, .right hgt⟩
      case atom.kind x k => exact ⟨x, k, .pin h.1⟩
      case kind.kind => simp [← h.2.2] at hkind
  | not body =>
      simp only [violation?, Option.ite_none_right_eq_some, Option.some.injEq, Prod.mk.injEq] at h
      simp [← h.2.2] at hkind
  | implies p c =>
      simp only [violation?, Option.ite_none_left_eq_some, Option.some.injEq, Prod.mk.injEq] at h
      simp [← h.2.2] at hkind

end Formula

namespace Run

variable {s : Store} {run run' : Run} {blocked : List Formula} {seeds queue : List AtomKey} {f : Formula}
  {id : ConstraintId} {key : AtomKey} {k : Kind}

/-- What falls short in a run is what a formula asks for there. -/
theorem asks_of_shortfall (h : f.Shortfall run.value key k) : run.Asks f key k := by
  induction h with
  | pin => exact .pin _ _
  | left hlt => exact .left hlt
  | right hlt => exact .right (not_lt.2 (le_of_lt hlt))
  | guarded hx _ ih => exact .passed (isLive_pin.2 ⟨.inl rfl, hx⟩) ih

/-! ### Nothing is pending at the end of a round -/

variable {Q : Run → ConstraintId → AtomKey → Kind → Prop}

/-- Two constraints with the same formula have their requests answered together. -/
def Shared (s : Store) (Q : Run → ConstraintId → AtomKey → Kind → Prop) : Prop :=
  ∀ f id id', (id, f) ∈ s.activeFormulas → (id', f) ∈ s.activeFormulas →
    ∀ run key k, Q run id key k → Q run id' key k

/-- A phase leaves nothing pending. -/
theorem Settles.pending (hQ : Answers s Q) (hshared : Shared s Q) (hs : s.Indexed)
    (h : Settles s blocked run queue run') (hpending : Pending s Q run queue) : Pending s Q run' [] := by
  induction h with
  | visit _ ih => exact ih (hpending.visit hQ hs)
  | fire hnext _ ih =>
      obtain ⟨hmem, hwait⟩ := mem_of_waiting?_eq_some hnext
      exact ih (hpending.fire hQ hs hwait fun id' hmem' => hshared _ _ id' hmem hmem')
  | rest => exact hpending

/-- Nor does a round. -/
theorem pending_round (hQ : Answers s Q) (hshared : Shared s Q) (hs : s.Indexed)
    (h : Pending s Q (Run.start s) seeds) (blocked : List Formula) :
    Pending s Q (round s seeds blocked) [] := by
  have hhard : Pending s Q (hard s seeds blocked) [] :=
    (settles_settle s blocked (Run.start s) seeds).pending hQ hshared hs h.enqueued
  exact (settles_settle s blocked _ _).pending hQ hshared hs (hhard.promote hQ _).enqueued

/-! ### Refusals -/

/-- The atom is up to the request, or the constraint has a refusal there. -/
def Refused (run : Run) (id : ConstraintId) (key : AtomKey) (k : Kind) : Prop :=
  run.value key < k → run.refusals.contains ⟨id, some key⟩ = true

/-- To be refused is to be answered. -/
theorem answers_refused (s : Store) : Answers s Refused where
  given {run id key k} hreg hnone hlt := by
    rcases raise_cases s id run key k with ⟨e, hle | hunknown⟩ | ⟨a, -, -, -, e⟩ | ⟨a, g, run', -, -, -, -, e⟩
    · rw [e] at hlt
      exact absurd hlt (not_lt.2 hle)
    · unfold SortedMap.contains at hreg
      rw [hunknown] at hreg
      exact nomatch hreg
    · rw [e]
      exact (SortedMap.contains_insertNew ..).2 (.inl rfl)
    · rw [e] at hnone
      exact nomatch hnone
  kept h hval hrefusals hlt := hrefusals _ (h (hval ▸ hlt))

/-- What falls short at the end of a round was refused in that round. -/
theorem contains_refusals_round (hs : s.Indexed)
    (hinj : ∀ {id id' : ConstraintId} {f : Formula}, s.formula? id = some f → s.formula? id' = some f → id = id')
    (hf : (id, f) ∈ s.activeFormulas) (h : f.Shortfall (round s s.atoms.keys blocked).value key k) :
    (round s s.atoms.keys blocked).refusals.contains ⟨id, some key⟩ = true := by
  have hshared : Shared s Refused := by
    intro g i j hi hj run key k hrefused
    rwa [hinj (Store.mem_activeFormulas.1 hj).2 (Store.mem_activeFormulas.1 hi).2]
  have hnone : Pending s Refused (round s s.atoms.keys blocked) [] :=
    pending_round (answers_refused s) hshared hs (pending_keys hs _) blocked
  exact hnone.answered hf h.isFlat key k (asks_of_shortfall h) h.lt

end Run

namespace Store

variable {s : Store} {E : AtomKey → Kind} {key : AtomKey} {k : Kind}

/-- A filter bars an atom from every kind above where it is and up to another. -/
def BarsUpTo (s : Store) (E : AtomKey → Kind) (key : AtomKey) (k : Kind) : Prop :=
  ∃ a, s.atoms.get? key = some a ∧ ∀ k', E key < k' → k' ≤ k → a.permits k' = false

/-- A demand that is met on a registered atom is met in full, or as far as the filter goes. -/
theorem Meets.barsUpTo (h : s.Meets E key k) (hreg : s.atoms.contains key = true) : s.BarsUpTo E key k := by
  obtain ⟨a, ha⟩ := Option.isSome_iff_exists.1 hreg
  refine ⟨a, ha, fun k' hlt hle => Bool.eq_false_iff.2 fun hpermits => ?_⟩
  have hmet : k' ≤ E key := (h.of_le hle).le ⟨a, ha, hpermits⟩
  exact absurd hmet (not_le.2 hlt)

/-- **Only filters keep equalities from being met.**  After solving, from whatever kinds the
atoms start with, an atom that is below what an equality in force asks of it, at top level or
in the conclusion of an implication whose unchecked premise is true, is barred by its filter
from every kind up to there; the accepted round has a refusal of that very constraint for it,
and it is reported as such.  So no line of the report says that two atoms differ or that an
atom is below a kind. -/
theorem shortfall_refused (hs : s.Built) (env : SortedMap AtomKey Kind) :
    let s' := s.startingFrom env
    let report := s'.solve.1.conflicts
    let t := s'.solve.2
    (∀ id f key k, (id, f) ∈ t.activeFormulas → f.Shortfall t.value key k →
      t.BarsUpTo t.value key k ∧ ∃ r, (s'.solution s'.atoms.keys).run.refusals.get? ⟨id, some key⟩ = some r ∧
        report.get? ⟨id, some key⟩ = some (.refused r)) ∧
    ∀ site conflict, report.get? site = some conflict →
      conflict ≠ .unequalAtoms ∧ conflict ≠ .belowKind := by
  have hindexed : (s.startingFrom env).Indexed := hs.indexed.of_eq rfl rfl rfl rfl
  have hinj : ∀ {id id' : ConstraintId} {f : Formula}, (s.startingFrom env).formula? id = some f →
      (s.startingFrom env).formula? id' = some f → id = id' := hs.formula?_inj
  generalize s.startingFrom env = s at *
  obtain ⟨hrun, -, -⟩ := solution_spec hindexed (primed_keys hindexed)
  have hcalm : Run.Calm s (s.solution s.atoms.keys).run := by
    rw [hrun]
    exact (Run.round_spec hindexed (primed_keys hindexed) _).2.calm
  have hrefused : ∀ id f key k, (id, f) ∈ s.activeFormulas →
      f.Shortfall (s.solution s.atoms.keys).run.value key k →
      (s.solution s.atoms.keys).run.refusals.contains ⟨id, some key⟩ = true := by
    rw [hrun]
    exact fun id f key k hf h => Run.contains_refusals_round hindexed hinj hf h
  refine ⟨fun id f key k hf h => ⟨?_, ?_⟩, fun site conflict hc => ?_⟩
  · have hask := Run.asks_of_shortfall h
    exact Meets.barsUpTo (hcalm (id, f) hf h.isFlat key k hask) (hindexed.contains_of_mem hf hask.mem_mentions)
  · obtain ⟨r, hr⟩ := Option.isSome_iff_exists.1 (hrefused id f key k hf h)
    exact ⟨r, hr, Run.get?_conflicts.2 (.inl ⟨r, hr, rfl⟩)⟩
  · rcases Run.get?_conflicts.1 hc with ⟨r, -, rfl⟩ | ⟨hfree, f, hf, hviolation⟩
    · exact ⟨nofun, nofun⟩
    · rw [← not_or]
      intro hkind
      obtain ⟨key, k, hshort⟩ := Formula.shortfall_of_violation? hviolation hkind
      rw [Run.hasRefusal_iff.2 ⟨_, hrefused _ _ key k hf hshort⟩] at hfree
      exact nomatch hfree

/-! ### A concrete store -/

/-- An unchecked atom is joined to one that may be a plain array at most, and makes another one
unchecked that may not be. -/
def fenced : Store :=
  let s := (({} : Store).addEq (.atom 0) (.kind .wild)).2
  let s := (s.addEq (.atom 0) (.atom 1)).2
  let s := (s.createEq (.atom 2) (.kind .wild)).2
  let s := ((s.createImplies? 0 2).getD (0, s)).2
  (((s.add 3).forbid 1 .wild).forbid 1 .ntArr).forbid 2 .wild

theorem fenced_built : fenced.Built :=
  ((((((Built.empty.addEq _ _ _).addEq _ _ _).createEq _ _ _).getD_createImplies? 0 2).add 3).forbid 1
    .wild).forbid 1 .ntArr |>.forbid 2 .wild

/-- Both are kept below what they are asked for, and both refusals are reported. -/
theorem fenced_refused : fenced.Built ∧
    (fenced.startingFrom ∅).solve.1.conflicts.entries =
      [(⟨1, some 1⟩, .refused ⟨.wild, some .arr⟩), (⟨3, some 2⟩, .refused ⟨.wild, some .ntArr⟩)] ∧
    (fenced.startingFrom ∅).solve.2.BarsUpTo (fenced.startingFrom ∅).solve.2.value 1 .wild ∧
    (fenced.startingFrom ∅).solve.2.BarsUpTo (fenced.startingFrom ∅).solve.2.value 2 .wild := by
  obtain ⟨hshort, -⟩ := shortfall_refused fenced_built ∅
  have hjoin : (Formula.join 0 1).Shortfall (fenced.startingFrom ∅).solve.2.value 1 .wild :=
    Formula.Shortfall.right (show (fenced.startingFrom ∅).solve.2.value 1 <
      (fenced.startingFrom ∅).solve.2.value 0 by decide)
  have hguarded : (Formula.guarded 0 (.pin 2 .wild)).Shortfall (fenced.startingFrom ∅).solve.2.value 2 .wild :=
    .guarded (by decide) (.pin (by decide))
  exact ⟨fenced_built, by decide, (hshort 1 _ 1 .wild (by decide) hjoin).1,
    (hshort 3 _ 2 .wild (by decide) hguarded).1⟩

end Store

end PointerKinds
