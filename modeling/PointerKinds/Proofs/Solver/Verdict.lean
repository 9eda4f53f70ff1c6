/-
What a report lists, and when a store counts as solved.

A report is collected in two parts: the refusals of the accepted round, and the constraints that
the outcome violates and no refusal names.  The parts have no site in common, and in neither does
a site come up twice.  So no line of the report takes the place of another: it holds what was
collected, and its lines are read off the two parts.
-/
import PointerKinds.Proofs.Solver.Rules

namespace PointerKinds

namespace Run

variable {s : Store} {run : Run} {site : Site} {conflict : Conflict}

theorem hasRefusal_iff {id : ConstraintId} :
    run.hasRefusal id = true ↔ ∃ key, run.refusals.contains ⟨id, key⟩ = true := by
  unfold hasRefusal
  simp only [List.any_eq_true, SortedMap.mem_keys_iff, decide_eq_true_eq]
  constructor
  · rintro ⟨site, hsite, rfl⟩
    exact ⟨site.key, hsite⟩
  · rintro ⟨key, hkey⟩
    exact ⟨⟨id, key⟩, hkey, rfl⟩

theorem hasRefusal_of_get? {r : Refusal} (h : run.refusals.get? site = some r) :
    run.hasRefusal site.constraint = true :=
  hasRefusal_iff.2 ⟨site.key, Option.isSome_iff_exists.2 ⟨r, h⟩⟩

theorem hasRefusal_eq_false (h : run.refusals.isEmpty = true) (id : ConstraintId) :
    run.hasRefusal id = false := by
  have hnil : run.refusals.entries = [] := List.isEmpty_iff.1 h
  unfold hasRefusal SortedMap.keys
  rw [hnil]
  rfl

/-! ### What is collected -/

/-- The line that the scan adds for a constraint: what it violates, unless a refusal names it. -/
def scanned? (run : Run) (c : ConstraintId × Formula) : Option (Site × Conflict) :=
  if run.hasRefusal c.1 then none
  else (c.2.violation? run.value).map fun v => (⟨c.1, v.1⟩, v.2)

/-- The lines of a report as they are come by: what was refused, and then what the scan adds. -/
def collected (s : Store) (run : Run) : List (Site × Conflict) :=
  (run.refusals.entries.map fun e => (e.1, .refused e.2)) ++ s.activeFormulas.filterMap run.scanned?

theorem scanned?_eq_some {c : ConstraintId × Formula} : run.scanned? c = some (site, conflict) ↔
    run.hasRefusal c.1 = false ∧ c.1 = site.constraint ∧
      c.2.violation? run.value = some (site.key, conflict) := by
  obtain ⟨id, key⟩ := site
  unfold scanned?
  cases run.hasRefusal c.1 with
  | true => simp
  | false =>
      simp only [Bool.false_eq_true, if_false, true_and, Option.map_eq_some_iff, Prod.exists, Prod.mk.injEq,
        Site.mk.injEq]
      constructor
      · rintro ⟨_, _, hviolation, ⟨hid, rfl⟩, rfl⟩
        exact ⟨hid, hviolation⟩
      · rintro ⟨hid, hviolation⟩
        exact ⟨_, _, hviolation, ⟨hid, rfl⟩, rfl⟩

theorem mem_collected : (site, conflict) ∈ run.collected s ↔
    (∃ r, run.refusals.get? site = some r ∧ conflict = .refused r) ∨
      run.hasRefusal site.constraint = false ∧
        ∃ f, (site.constraint, f) ∈ s.activeFormulas ∧ f.violation? run.value = some (site.key, conflict) := by
  unfold collected
  rw [List.mem_append, List.mem_map, List.mem_filterMap]
  refine or_congr ?_ ?_
  · constructor
    · rintro ⟨⟨site, r⟩, he, heq⟩
      obtain ⟨rfl, rfl⟩ := Prod.mk.inj heq
      exact ⟨r, (SortedMap.mem_entries_iff ..).1 he, rfl⟩
    · rintro ⟨r, hr, rfl⟩
      exact ⟨(site, r), (SortedMap.mem_entries_iff ..).2 hr, rfl⟩
  · constructor
    · rintro ⟨⟨id, f⟩, hf, hscan⟩
      obtain ⟨hfree, rfl, hviolation⟩ := scanned?_eq_some.1 hscan
      exact ⟨hfree, f, hf, hviolation⟩
    · rintro ⟨hfree, f, hf, hviolation⟩
      exact ⟨(site.constraint, f), hf, scanned?_eq_some.2 ⟨hfree, rfl, hviolation⟩⟩

theorem reportViolation_eq (run : Run) (report : SortedMap Site Conflict) (c : ConstraintId × Formula) :
    run.reportViolation report c = (run.scanned? c).elim report fun e => report.insert e.1 e.2 := by
  unfold reportViolation scanned?
  cases run.hasRefusal c.1 with
  | true => rfl
  | false => cases c.2.violation? run.value <;> rfl

theorem foldl_reportViolation (l : List (ConstraintId × Formula)) (report : SortedMap Site Conflict) :
    l.foldl run.reportViolation report =
      (l.filterMap run.scanned?).foldl (fun m e => m.insert e.1 e.2) report := by
  induction l generalizing report with
  | nil => rfl
  | cons c rest ih =>
      rw [List.foldl_cons, ih, reportViolation_eq, List.filterMap_cons]
      cases run.scanned? c <;> rfl

/-- The scan adds one line for a constraint at most. -/
theorem nodup_scanned (s : Store) (run : Run) :
    ((s.activeFormulas.filterMap run.scanned?).map Prod.fst).Nodup := by
  refine List.pairwise_map.2 (List.pairwise_filterMap.2 (s.pairwise_activeFormulas.imp ?_))
  intro c d hlt e he e' he' hsite
  have hc : c.1 = e.1.constraint := (scanned?_eq_some.1 he).2.1
  have hd : d.1 = e'.1.constraint := (scanned?_eq_some.1 he').2.1
  exact Nat.ne_of_lt hlt (hc.trans ((congrArg Site.constraint hsite).trans hd.symm))

theorem perm_collected (s : Store) (run : Run) : (run.collected s).Perm (run.conflicts s).entries := by
  have hfree : ∀ e ∈ s.activeFormulas.filterMap run.scanned?,
      (run.refusals.mapValues fun _ r => Conflict.refused r).get? e.1 = none := by
    intro e he
    obtain ⟨c, -, hc⟩ := List.mem_filterMap.1 he
    obtain ⟨hnone, hid, -⟩ := scanned?_eq_some.1 hc
    rw [SortedMap.get?_mapValues, Option.map_eq_none_iff, Option.eq_none_iff_forall_ne_some]
    intro r hr
    rw [hid, hasRefusal_of_get? hr] at hnone
    exact nomatch hnone
  unfold conflicts
  rw [foldl_reportViolation]
  exact List.perm_append_comm.trans (SortedMap.perm_foldl_insert (nodup_scanned s run) hfree).symm

/-- **A report is what was collected, sorted.**  No site comes up twice among the refusals and the
violations of a run, and sorting them by their sites gives the lines of the report. -/
theorem mergeSort_collected (s : Store) (run : Run) : ((run.collected s).map Prod.fst).Nodup ∧
    (run.collected s).mergeSort (fun a b => (compare a.1 b.1).isLE) = (run.conflicts s).entries :=
  ⟨((perm_collected s run).map Prod.fst).nodup_iff.2 (run.conflicts s).nodup_keys,
    SortedMap.mergeSort_eq_entries (perm_collected s run)⟩

/-! ### What is reported -/

/-- The lines of a report are the refusals, and the violations by constraints that nothing refused. -/
theorem get?_conflicts : (run.conflicts s).get? site = some conflict ↔
    (∃ r, run.refusals.get? site = some r ∧ conflict = .refused r) ∨
      run.hasRefusal site.constraint = false ∧
        ∃ f, (site.constraint, f) ∈ s.activeFormulas ∧ f.violation? run.value = some (site.key, conflict) := by
  rw [← mem_collected, (perm_collected s run).mem_iff, SortedMap.mem_entries_iff]

/-- Nothing is reported exactly if nothing was refused and nothing is violated. -/
theorem isEmpty_conflicts : (run.conflicts s).isEmpty = true ↔ run.refusals.isEmpty = true ∧
    ∀ f, s.InForce f → f.violation? run.value = none := by
  have hlines : (run.conflicts s).isEmpty = true ↔ run.collected s = [] := by
    unfold SortedMap.isEmpty
    rw [← (perm_collected s run).isEmpty_eq, List.isEmpty_iff]
  rw [hlines]
  unfold collected
  rw [List.append_eq_nil_iff, List.map_eq_nil_iff, ← List.isEmpty_iff, List.filterMap_eq_nil_iff]
  refine and_congr_right fun hrefusals => ?_
  have hscan : ∀ c, run.scanned? c = none ↔ c.2.violation? run.value = none := by
    intro c
    unfold scanned?
    rw [hasRefusal_eq_false hrefusals, if_neg Bool.false_ne_true, Option.map_eq_none_iff]
  constructor
  · intro h f hf
    obtain ⟨id, hf⟩ := hf
    exact (hscan _).1 (h (id, f) hf)
  · intro h c hc
    exact (hscan c).2 (h c.2 ⟨c.1, hc⟩)

end Run

namespace Formula

variable {E : AtomKey → Kind} {a b x : AtomKey} {k : Kind}

/-! ### The three shapes of a demand -/

theorem violation?_pin : (pin x k).violation? E = if E x < k then some (some x, .belowKind) else none :=
  rfl

theorem violation?_join :
    (join a b).violation? E = if E a = E b then none else some (some a, .unequalAtoms) := rfl

theorem violation?_flow : (flow a b k).violation? E =
    if E a = k ∧ ¬ k ≤ E b then some (none, .implicationFails) else none := by
  have hholds : (flow a b k).holds E = true ↔ ¬ (E a = k ∧ ¬ k ≤ E b) := by
    simp only [holds, equalityHolds, Bool.or_eq_true, bne_iff_ne, ne_eq, truth_atomKind_eq_yes,
      decide_eq_true_eq]
    grind
  show (if (flow a b k).holds E = true then none else some (none, Conflict.implicationFails)) = _
  by_cases h : E a = k ∧ ¬ k ≤ E b
  · rw [if_pos h, if_neg fun hh => hholds.1 hh h]
  · rw [if_neg h, if_pos (hholds.2 h)]

end Formula

end PointerKinds
