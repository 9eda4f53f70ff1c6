/-
Through every call on a session, groups are named after what made their atoms unchecked.

Before a session is first solved, nothing is unchecked and there is nothing to say.  The
first call that solves makes it steady, and every later call keeps it so; and then the
groups are those of the store as it is, whose roots are the origins of their members.
-/
import PointerKinds.Proofs.RootCauses.Origins
import PointerKinds.Proofs.Session.Reachability

namespace PointerKinds

namespace Program

variable {p : Program}

/-- A program that was built, and perhaps solved and edited. -/
def Ready (p : Program) : Prop := p.Steady ∨ p.store.Fresh

theorem Ready.indexed (h : p.Ready) : p.store.Indexed := h.elim (·.store.indexed) (·.indexed)

theorem Ready.demand (h : p.Ready) :
    ∀ id ∈ p.store.topLevel, ∀ f, p.store.formula? id = some f → f.IsDemand :=
  h.elim (·.store.demand) (·.demand_topLevel)

theorem keptByCalls_ready : KeptByCalls Ready where
  solve p h := .inl (steady_regroup p (h.elim (·.store.solve) (·.steady_solve)))
  makeNonWild p key changed q h hq := by
    rcases h with h | h
    · exact .inl (h.makeNonWild hq)
    · have he : _ = q := congrArg Prod.snd (ifKnown_eq_ok hq)
      have hne : p.store.value key ≠ .wild := by
        rw [h.checked]
        decide
      refine .inr ?_
      rw [← he]
      show (p.store.makeNonWild key (p.regionOf key)).2.Fresh
      rwa [Store.makeNonWild_of_ne hne]
  invalidate p key changed q h hq := (invalidate_cases h.indexed h.demand hq).elim (· ▸ h) .inl
  restore p key changed q h hq := (restore_cases h.indexed h.demand hq).elim (· ▸ h) .inl

end Program

namespace Session

variable {s t : Session} {options : Options} {r : Recording}

/-- **Through every call, root causes are exact.**  After any calls on any built session,
stepping from an atom to the one that its remembered constraint had the kind from never
branches, never comes back, and always ends.  From an unchecked atom it ends at one that a
constraint in force pins.  That is the root of the atom's group; the members of the group
are the atoms it is reached from; no other member is blamed; and the reason of the root is
the explanation stored with the constraint. -/
theorem rootCauses_exact {cs : List Call} (hbuild : (start options r).build = .ok (.ok (), s))
    (h : s.performAll cs = .ok t) :
    Relator.RightUnique t.program.store.TakesFrom ∧
    WellFounded (fun y x => t.program.store.TakesFrom x y) ∧
    ∀ k, t.program.store.value k = .wild → ∃ root id c group,
      Relation.ReflTransGen t.program.store.TakesFrom k root ∧ t.program.store.PinnedBy root id c ∧
      t.program.rootCauses.find k = some root ∧ t.program.rootCauses.group root = some group ∧
      (∀ x, x ∈ group ↔ Relation.ReflTransGen t.program.store.TakesFrom x root) ∧
      (∀ x ∈ group, t.program.rootCauses.direct.contains x = true ↔ x = root) ∧
      t.program.rootCauses.reason root = some c.why := by
  have hfresh : s.program.Ready := .inr (recorded_build hbuild).fresh
  rcases (performAll_keeps Program.keptByCalls_ready (built_of_build hbuild) hfresh h).2 with ht | ht
  · rw [ht.grouped]
    exact ⟨ht.store.takesFrom_unique, ht.store.wellFounded_takesFrom, fun k => ht.store.group_of_origin⟩
  · have hnone : ∀ {x y}, ¬ t.program.store.TakesFrom x y := by
      rintro x y ⟨id, f, hx, -⟩
      rw [ht.uncaused] at hx
      exact nomatch hx
    refine ⟨fun _ _ _ hx => absurd hx hnone, ⟨fun x => .intro x fun y hy => absurd hy hnone⟩, fun k hk => ?_⟩
    rw [ht.checked] at hk
    exact nomatch hk

/-- The first group is released before anything is solved, released again, and restored. -/
def threeRestored : Session :=
  (threeBuilt.performAll [.makeNonWild 0, .solve false, .makeNonWild 0, .restore 0]).toOption.getD threeBuilt

/-- The second pointer is unchecked because of the first, for the reason given for that. -/
theorem threeRestored_rootCauses : (start {} threePointers).build = .ok (.ok (), threeBuilt) ∧
    threeBuilt.performAll [.makeNonWild 0, .solve false, .makeNonWild 0, .restore 0] = .ok threeRestored ∧
    threeRestored.program.rootCauses.find 1 = some 0 ∧
    ∃ root id c, Relation.ReflTransGen threeRestored.program.store.TakesFrom 1 root ∧
      threeRestored.program.store.PinnedBy root id c ∧
      threeRestored.program.rootCauses.find 1 = some root ∧
      threeRestored.program.rootCauses.reason root = some c.why := by
  have hbuild : (start {} threePointers).build = .ok (.ok (), threeBuilt) := rfl
  have hcalls : threeBuilt.performAll [.makeNonWild 0, .solve false, .makeNonWild 0, .restore 0] =
      .ok threeRestored := rfl
  obtain ⟨root, id, c, group, hwalk, hpin, hfind, -, -, -, hreason⟩ :=
    (rootCauses_exact hbuild hcalls).2.2 1 (by decide +kernel)
  exact ⟨hbuild, hcalls, by decide +kernel, root, id, c, hwalk, hpin, hfind, hreason⟩

end Session

end PointerKinds
