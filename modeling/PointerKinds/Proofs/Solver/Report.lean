/-
What a report says is so, and nothing is left out of it.

A report has two sources.  Refusals are noted while atoms are raised, each under the
constraint that asked, and that constraint is in force; only those of the accepted round
are left at the end.  The rest is a scan of the constraints in force under the strict
reading of their shapes, which has to come out as the generous reading by which a
solution is judged.  It does, for formulas that name the atom of an equality before its
kind, and those are the only ones that can be created.

So a constraint that does not hold is named, by its refusals if it has any and else by
the scan; and what the scan names does not hold.
-/
import PointerKinds.Proofs.Solver.Least
import PointerKinds.Proofs.Solver.Verdict

namespace PointerKinds

namespace Site

/-- Sites are ordered by constraint, and those of one constraint by atom. -/
def Precedes (a b : Site) : Prop :=
  a.constraint < b.constraint ∨ a.constraint = b.constraint ∧ compare a.key b.key = .lt

theorem precedes_iff {a b : Site} : a.Precedes b ↔ compare a b = .lt := by
  show _ ↔ (compare a.constraint b.constraint).then (compare a.key b.key) = .lt
  rw [Ordering.then_eq_lt, Nat.compare_eq_lt, Nat.compare_eq_eq]
  rfl

end Site

namespace Formula

/-- What the scan of a report calls violated is what does not hold. -/
theorem violation?_eq_none_iff {E : AtomKey → Kind} {f : Formula} (h : f.IsNormal) :
    f.violation? E = none ↔ f.holds E = true := by
  cases f with
  | eq l r =>
      cases l <;> cases r
      · simp [violation?, holds, equalityHolds]
      · simp [violation?, holds, equalityHolds]
      · exact h.elim
      · simp [violation?, holds, equalityHolds]
  | not body => simp [violation?, holds]
  | implies p c => simp [violation?]

end Formula

namespace Run

variable {s : Store} {run run' : Run} {blocked : List Formula} {seeds : List AtomKey}

/-! ### Refusals are those of constraints in force -/

/-- Every refusal is noted under a constraint in force. -/
def RefusesForCause (s : Store) (run : Run) : Prop :=
  ∀ site r, run.refusals.get? site = some r → ∃ f, (site.constraint, f) ∈ s.activeFormulas

theorem RefusesForCause.act (h : RefusesForCause s run) (hact : Act s blocked run run') :
    RefusesForCause s run' := by
  cases hact with
  | visit | fire => exact h
  | @raise id f x k hf =>
      intro site r hr
      rcases refusals_raise s id run x k with he | ⟨r', he⟩
      · exact h site r (he ▸ hr)
      · rw [he, SortedMap.get?_insertNew] at hr
        split at hr
        · rename_i hsite
          rw [hsite.1]
          exact ⟨f, hf⟩
        · exact h site r hr

theorem refusesForCause_round (hs : s.Indexed) (h : Primed s seeds) (blocked : List Formula) :
    RefusesForCause s (round s seeds blocked) := by
  refine round_keeps hs h blocked (fun site r hr => nomatch hr) (fun _ _ hact hr => hr.act hact) ?_
  intro r hr
  unfold RefusesForCause
  rwa [refusals_promote]

/-! ### What a report names -/

/-- A report names the constraints that something refused and those that are violated. -/
theorem named_conflicts {id : ConstraintId} {f : Formula} (hf : (id, f) ∈ s.activeFormulas) :
    (∃ key, (run.conflicts s).contains ⟨id, key⟩ = true) ↔
      run.hasRefusal id = true ∨ f.violation? run.value ≠ none := by
  simp only [SortedMap.contains, Option.isSome_iff_exists, get?_conflicts]
  constructor
  · rintro ⟨key, conflict, ⟨r, hr, -⟩ | ⟨-, g, hg, hviolation⟩⟩
    · exact .inl (hasRefusal_of_get? hr)
    · obtain rfl : g = f :=
        Option.some.inj ((Store.mem_activeFormulas.1 hg).2.symm.trans (Store.mem_activeFormulas.1 hf).2)
      right
      rw [hviolation]
      exact Option.some_ne_none _
  · intro h
    cases hrefusal : run.hasRefusal id with
    | true =>
        obtain ⟨key, hkey⟩ := hasRefusal_iff.1 hrefusal
        obtain ⟨r, hr⟩ := Option.isSome_iff_exists.1 hkey
        exact ⟨key, _, .inl ⟨r, hr, rfl⟩⟩
    | false =>
        obtain ⟨v, hv⟩ := Option.ne_none_iff_exists'.1 (h.resolve_left (by rw [hrefusal]; decide))
        exact ⟨v.1, v.2, .inr ⟨rfl, f, hf, hv⟩⟩

/-! ### Completeness and truth -/

variable (hnormal : ∀ c ∈ s.activeFormulas, c.2.IsNormal)
include hnormal

/-- A constraint in force that does not hold is named. -/
theorem exists_site_of_not_holds {id : ConstraintId} {f : Formula} (hf : (id, f) ∈ s.activeFormulas)
    (hfails : f.holds run.value = false) : ∃ site ∈ (run.conflicts s).keys, site.constraint = id := by
  have hviolated : f.violation? run.value ≠ none := by
    rw [ne_eq, Formula.violation?_eq_none_iff (hnormal _ hf), hfails]
    decide
  obtain ⟨key, hkey⟩ := (named_conflicts hf).2 (.inr hviolated)
  exact ⟨⟨id, key⟩, (SortedMap.mem_keys_iff ..).2 hkey, rfl⟩

/-- Every line names a constraint in force, which does not hold unless a filter is to blame. -/
theorem not_holds_of_conflict (hcause : RefusesForCause s run) {site : Site} {conflict : Conflict}
    (h : (run.conflicts s).get? site = some conflict) : ∃ f, (site.constraint, f) ∈ s.activeFormulas ∧
      ((∀ r, conflict ≠ .refused r) → f.holds run.value = false) := by
  rcases get?_conflicts.1 h with ⟨r, hr, rfl⟩ | ⟨-, f, hf, hviolation⟩
  · obtain ⟨f, hf⟩ := hcause site r hr
    exact ⟨f, hf, fun hne => absurd rfl (hne r)⟩
  · refine ⟨f, hf, fun _ => Bool.eq_false_iff.2 fun hholds => ?_⟩
    rw [(Formula.violation?_eq_none_iff (hnormal _ hf)).2 hholds] at hviolation
    exact nomatch hviolation

/-- Where nothing is reported, everything in force holds. -/
theorem holds_of_isEmpty (h : (run.conflicts s).isEmpty = true) {f : Formula} (hf : s.InForce f) :
    f.holds run.value = true := by
  cases hholds : f.holds run.value with
  | true => rfl
  | false =>
      obtain ⟨id, hf⟩ := hf
      obtain ⟨site, hsite, -⟩ := exists_site_of_not_holds hnormal hf hholds
      unfold SortedMap.keys at hsite
      rw [List.isEmpty_iff.1 h] at hsite
      exact absurd hsite List.not_mem_nil

end Run

namespace Store

variable {s : Store}

/-- **The report of a solver run is complete and true.**  From whatever kinds the atoms
start with, every constraint in force that does not hold in the end is named; every line
names a constraint in force, and one that does not hold, unless the line is about a
filter; no site comes up twice among the refusals and violations that are collected, the
report is what was collected, sorted, and its lines ascend by constraint and atom; and so a
store counts as solved only if every constraint in force holds. -/
theorem conflicts_complete_and_true (hs : s.Built) (env : SortedMap AtomKey Kind) :
    let s' := s.startingFrom env
    let report := s'.solve.1.conflicts
    let collected := (s'.solution s'.atoms.keys).run.collected s'
    let t := s'.solve.2
    (∀ id f, (id, f) ∈ t.activeFormulas → f.holds t.value = false →
      ∃ site ∈ report.keys, site.constraint = id) ∧
    (∀ site conflict, report.get? site = some conflict → ∃ f,
      (site.constraint, f) ∈ t.activeFormulas ∧
        ((∀ r, conflict ≠ .refused r) → f.holds t.value = false)) ∧
    (collected.map Prod.fst).Nodup ∧ collected.mergeSort (fun a b => (compare a.1 b.1).isLE) = report.entries ∧
    report.keys.Pairwise Site.Precedes ∧
    (s'.solve.1.isSolved = true → ∀ f, t.InForce f → f.holds t.value = true) := by
  have hnormal : ∀ c ∈ (s.startingFrom env).activeFormulas, c.2.IsNormal := fun c hc =>
    hs.isNormal (mem_activeFormulas.1 hc).2
  have hindexed : (s.startingFrom env).Indexed := hs.indexed.of_eq rfl rfl rfl rfl
  generalize s.startingFrom env = s at *
  obtain ⟨hrun, -, -⟩ := solution_spec hindexed (primed_keys hindexed)
  have hcause : Run.RefusesForCause s (s.solution s.atoms.keys).run := by
    rw [hrun]
    exact Run.refusesForCause_round hindexed (primed_keys hindexed) _
  obtain ⟨hnodup, hsorted⟩ := Run.mergeSort_collected s (s.solution s.atoms.keys).run
  exact ⟨fun id f hf hfails => Run.exists_site_of_not_holds hnormal hf hfails,
    fun site conflict hc => Run.not_holds_of_conflict hnormal hcause hc, hnodup, hsorted,
    List.pairwise_map.2 ((Run.conflicts s _).sorted.imp Site.precedes_iff.2),
    fun hempty f hf => Run.holds_of_isEmpty hnormal hempty hf⟩

/-! ### A concrete store -/

/-- An unchecked atom that is told not to be, and equated with one that cannot be. -/
def tangled : Store :=
  let s := (({} : Store).addEq (.atom 0) (.kind .wild)).2
  let s := ((s.createNot? 0).getD (0, s)).2
  let s := ((s.createImplies? 0 1).getD (0, s)).2
  let s := ((s.add 2).ensureAtom 1).forbid 1 .wild
  (s.addEq (.atom 0) (.atom 1)).2

theorem tangled_built : tangled.Built :=
  ((((((Built.empty.addEq _ _ _).getD_createNot? 0).getD_createImplies? 0 1).add 2).ensureAtom 1).forbid 1
    .wild).addEq _ _ _

/-- What cannot hold and what is refused are both reported, under their constraints. -/
theorem tangled_reported : tangled.Built ∧
    (tangled.startingFrom ∅).solve.1.conflicts.entries =
      [(⟨2, none⟩, .implicationFails), (⟨3, some 1⟩, .refused ⟨.wild, some .ntArr⟩)] ∧
    (∃ site ∈ (tangled.startingFrom ∅).solve.1.conflicts.keys, site.constraint = 2) ∧
    (tangled.startingFrom ∅).solve.1.conflicts.keys.Pairwise Site.Precedes := by
  obtain ⟨hcomplete, -, -, -, hsorted, -⟩ := conflicts_complete_and_true tangled_built ∅
  have hrule : (2, Formula.implies (.pin 0 .wild) (.not (.pin 0 .wild))) ∈
      (tangled.startingFrom ∅).solve.2.activeFormulas := by decide
  exact ⟨tangled_built, by decide, hcomplete 2 _ hrule (by decide), hsorted⟩

end Store

end PointerKinds
