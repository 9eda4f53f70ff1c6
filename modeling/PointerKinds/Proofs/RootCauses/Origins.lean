/-
Every unchecked atom goes back to one pin, and its group is named after that.

Between edits, the constraint remembered for an unchecked atom is a pin of it, or took the
kind from one other atom, which was unchecked before.  So stepping from atom to atom never
branches and never comes back, and ends at an atom that a constraint in force makes
unchecked by itself: its origin.

The groups put every atom with the one it was made unchecked by, and nothing else
together.  So two atoms are in one group exactly if they have the same origin, the origin is
the one member of its group that is blamed, and the reason of the group is that of the
constraint which pins it.
-/
import PointerKinds.Proofs.Solver.Edits

namespace PointerKinds

namespace Formula

/-- From which atom a formula hands the unchecked kind on to another: from the other side of
an equality, or from an unchecked atom of a premise. -/
inductive Supplies (E : AtomKey → Kind) (x y : AtomKey) : Formula → Prop
  | join : Supplies E x y (join x y)
  | joinBack : Supplies E x y (join y x)
  | premise {p c : Formula} (hy : y ∈ p.mentions) (hwild : E y = .wild) : Supplies E x y (implies p c)

end Formula

namespace Store

variable {s : Store} {x y z k root : AtomKey} {id : ConstraintId} {f : Formula}

/-! ### Stepping from atom to atom -/

/-- The constraint remembered for one atom had the kind from another. -/
def TakesFrom (s : Store) (x y : AtomKey) : Prop :=
  ∃ id f, s.forcedBy.get? x = some id ∧ s.formula? id = some f ∧ f.Supplies s.value x y

/-- An atom is remembered to be unchecked because of a constraint in force that pins it. -/
structure PinnedBy (s : Store) (x : AtomKey) (id : ConstraintId) (c : Constraint) : Prop where
  caused : s.forcedBy.get? x = some id
  active : s.isActive id = true
  constraint : s.constraint? id = some c
  pin : c.formula = .pin x .wild

/-- Stepping from one atom leads to another, which is pinned. -/
def Origin (s : Store) (k root : AtomKey) : Prop :=
  Relation.ReflTransGen s.TakesFrom k root ∧ ∃ id c, s.PinnedBy root id c

/-- An atom has its kind from exactly one other, an unchecked one. -/
structure StepsTo (s : Store) (x y : AtomKey) : Prop where
  takes : ∀ z, s.TakesFrom x z ↔ z = y
  source : s.wildSource x = .atom y
  wild : s.value y = .wild

theorem PinnedBy.not_takesFrom {c : Constraint} (h : s.PinnedBy x id c) : ¬ s.TakesFrom x y := by
  rintro ⟨id', f, hx, hf, hsupplies⟩
  obtain rfl := Option.some.inj (h.caused.symm.trans hx)
  have hformula : s.formula? id = some (.pin x .wild) := by
    unfold formula?
    rw [h.constraint, Option.map_some, h.pin]
  obtain rfl := Option.some.inj (hformula.symm.trans hf)
  cases hsupplies

theorem PinnedBy.wildSource {c : Constraint} (h : s.PinnedBy x id c) : s.wildSource x = .direct c.why := by
  unfold Store.wildSource sourceIn
  rw [h.caused, Option.bind_some, h.constraint]
  simp only [h.pin, Formula.otherAtom?, Formula.otherSide?, if_true, Option.bind_some, Operand.key?]

/-- A remembered constraint with another atom in it tells which one the kind is from. -/
theorem stepsTo_of_shape (hx : s.forcedBy.get? x = some id) (hf : (id, f) ∈ s.activeFormulas)
    (hshape : f = .join x y ∨ f = .join y x ∨ f = .flow y x .wild) (hy : s.value y = .wild) :
    s.StepsTo x y := by
  refine ⟨fun z => ⟨?_, ?_⟩, wildSource_eq hx hf hshape hy, hy⟩
  · rintro ⟨id', f', hx', hf', hsupplies⟩
    obtain rfl := Option.some.inj (hx.symm.trans hx')
    obtain rfl := Option.some.inj ((mem_activeFormulas.1 hf).2.symm.trans hf')
    rcases hshape with rfl | rfl | rfl
    · cases hsupplies <;> rfl
    · cases hsupplies <;> rfl
    · cases hsupplies with
      | premise hz => simpa [Formula.mentions, Operand.key?] using hz
  · rintro rfl
    refine ⟨id, f, hx, (mem_activeFormulas.1 hf).2, ?_⟩
    rcases hshape with rfl | rfl | rfl
    · exact .join
    · exact .joinBack
    · exact .premise (by simp [Formula.mentions, Operand.key?]) hy

/-- What holds of pinned atoms and of atoms one step from where it holds, holds of every atom
that is unchecked between edits. -/
theorem Steady.stepping {P : AtomKey → Prop} (h : s.Steady)
    (hpin : ∀ x id c, s.PinnedBy x id c → P x) (hstep : ∀ x y, s.StepsTo x y → P y → P x)
    (hx : s.value x = .wild) : P x := by
  have hwild : ∀ {y}, s.Justified s.forcedBy y → s.value y = .wild := by
    intro y hy
    obtain ⟨id, hid⟩ := hy.caused
    exact h.explained.wild y id hid
  have hjustified : s.Justified s.forcedBy x := h.explained.justified x hx
  clear hx
  induction hjustified with
  | pin hx hf =>
      obtain ⟨hactive, hformula⟩ := mem_activeFormulas.1 hf
      obtain ⟨c, hc, hcpin⟩ := Option.map_eq_some_iff.1 hformula
      exact hpin _ _ c ⟨hx, hactive, hc, hcpin⟩
  | join hx hf _ hy ih => exact hstep _ _ (stepsTo_of_shape hx hf (.inl rfl) (hwild hy)) ih
  | joinBack hx hf _ hy ih =>
      exact hstep _ _ (stepsTo_of_shape hx hf (.inr (.inl rfl)) (hwild hy)) ih
  | flow hx hf _ hy ih =>
      exact hstep _ _ (stepsTo_of_shape hx hf (.inr (.inr rfl)) (hwild hy)) ih

theorem Steady.value_of_takesFrom (h : s.Steady) (hxy : s.TakesFrom x y) : s.value x = .wild := by
  obtain ⟨id, f, hx, -⟩ := hxy
  exact h.explained.wild x id hx

/-- Stepping never branches. -/
theorem Steady.takesFrom_unique (h : s.Steady) : Relator.RightUnique s.TakesFrom := by
  intro x y z hy hz
  refine h.stepping (P := fun x => s.TakesFrom x y → s.TakesFrom x z → y = z) ?_ ?_
    (h.value_of_takesFrom hy) hy hz
  · exact fun x id c hpin hy _ => absurd hy hpin.not_takesFrom
  · intro x w hstep _ hy hz
    rw [(hstep.takes y).1 hy, (hstep.takes z).1 hz]

/-- Stepping never comes back, and always ends. -/
theorem Steady.wellFounded_takesFrom (h : s.Steady) : WellFounded fun y x => s.TakesFrom x y := by
  have hacc : ∀ x, s.value x = .wild → Acc (fun y x => s.TakesFrom x y) x := fun x =>
    h.stepping (fun x id c hpin => .intro x fun y hy => absurd hy hpin.not_takesFrom)
      fun x y hstep hy => .intro x fun z hz => (hstep.takes z).1 hz ▸ hy
  exact ⟨fun x => .intro x fun y hy => (hacc x (h.value_of_takesFrom hy)).inv hy⟩

/-! ### Origins -/

theorem PinnedBy.eq_of_reflTransGen {c : Constraint} (h : s.PinnedBy x id c)
    (hxy : Relation.ReflTransGen s.TakesFrom x y) : y = x := by
  rcases hxy.cases_head with rfl | ⟨z, hz, -⟩
  · rfl
  · exact absurd hz h.not_takesFrom

/-- Every unchecked atom has an origin. -/
theorem Steady.exists_origin (h : s.Steady) (hx : s.value x = .wild) : ∃ root, s.Origin x root := by
  refine h.stepping (P := fun x => ∃ root, s.Origin x root) (fun x id c hpin => ⟨x, .refl, id, c, hpin⟩)
    ?_ hx
  rintro x y hstep ⟨root, hwalk, hpin⟩
  exact ⟨root, .head ((hstep.takes y).2 rfl) hwalk, hpin⟩

/-- Wherever stepping leads, it leads on to the origin. -/
theorem Steady.origin_of_reflTransGen (h : s.Steady) (hx : s.Origin x root)
    (hxy : Relation.ReflTransGen s.TakesFrom x y) : s.Origin y root := by
  obtain ⟨hwalk, id, c, hpin⟩ := hx
  rcases Relation.ReflTransGen.total_of_right_unique h.takesFrom_unique hxy hwalk with hon | hback
  · exact ⟨hon, id, c, hpin⟩
  · rw [hpin.eq_of_reflTransGen hback]
    exact ⟨.refl, id, c, hpin⟩

theorem Steady.origin_iff_of_takesFrom (h : s.Steady) (hxy : s.TakesFrom x y) :
    s.Origin x root ↔ s.Origin y root :=
  ⟨fun hx => h.origin_of_reflTransGen hx (.single hxy), fun hy => ⟨.head hxy hy.1, hy.2⟩⟩

/-! ### The groups -/

/-- Every source is an unchecked atom. -/
theorem Steady.source_mem (h : s.Steady) {key other : AtomKey} (hkey : key ∈ s.wildAtoms)
    (hsource : s.wildSource key = .atom other) : s.TakesFrom key other ∧ other ∈ s.wildAtoms := by
  refine h.stepping (P := fun key => s.wildSource key = .atom other →
    s.TakesFrom key other ∧ other ∈ s.wildAtoms) ?_ ?_ (mem_wildAtoms.1 hkey) hsource
  · intro x id c hpin hsource
    rw [hpin.wildSource] at hsource
    exact nomatch hsource
  · intro x y hstep _ hsource
    rw [hstep.source] at hsource
    obtain rfl := WildSource.atom.inj hsource
    exact ⟨(hstep.takes y).2 rfl, mem_wildAtoms.2 hstep.wild⟩

/-- Exactly the pinned atoms have a reason of their own, that of their constraint. -/
theorem Steady.ownReason_eq_some (h : s.Steady) (hx : s.value x = .wild) {why : Explanation} :
    RootCauses.ownReason s x = some why ↔ ∃ id c, s.PinnedBy x id c ∧ c.why = why := by
  refine h.stepping (P := fun x => RootCauses.ownReason s x = some why ↔
    ∃ id c, s.PinnedBy x id c ∧ c.why = why) ?_ ?_ hx
  · intro x id c hpin
    have hown : RootCauses.ownReason s x = some c.why := by
      simp only [RootCauses.ownReason, hpin.wildSource]
    rw [hown]
    constructor
    · intro he
      exact ⟨id, c, hpin, Option.some.inj he⟩
    · rintro ⟨id', c', hpin', rfl⟩
      obtain rfl := Option.some.inj (hpin.caused.symm.trans hpin'.caused)
      rw [Option.some.inj (hpin.constraint.symm.trans hpin'.constraint)]
  · intro x y hstep _
    have hown : RootCauses.ownReason s x = none := by
      simp only [RootCauses.ownReason, hstep.source]
    rw [hown]
    refine iff_of_false (by simp) ?_
    rintro ⟨id, c, hpin, -⟩
    exact hpin.not_takesFrom ((hstep.takes y).2 rfl)

/-- The groups as they are traced, before they are completed. -/
def traced (s : Store) : RootCauses :=
  s.wildAtoms.foldl (RootCauses.trace s) (.discrete s.wildAtoms)

theorem traced_traced (s : Store) : RootCauses.Traced s s.traced :=
  (RootCauses.traced_foldl s.wildAtoms (RootCauses.traced_discrete s) fun _ hkey => hkey).1

/-- An atom is in the group of its origin. -/
theorem Steady.same_origin (h : s.Steady) (hx : s.value x = .wild) (hroot : s.Origin x root) :
    s.traced.Same x root := by
  refine h.stepping (P := fun x => s.Origin x root → s.traced.Same x root) ?_ ?_ hx hroot
  · intro x id c hpin hroot
    rw [hpin.eq_of_reflTransGen hroot.1]
    obtain ⟨l, hl⟩ := RootCauses.contains_iff.1
      (((traced_traced s).covers x).2 (mem_wildAtoms.2 (h.explained.wild x id hpin.caused)))
    exact ⟨l, hl, hl⟩
  · intro x y hstep ih hroot
    have htakes : s.TakesFrom x y := (hstep.takes y).2 rfl
    have hsame : s.traced.Same x y := (RootCauses.traced_foldl s.wildAtoms (RootCauses.traced_discrete s)
      fun _ hkey => hkey).2.2 x (mem_wildAtoms.2 (h.value_of_takesFrom htakes)) y hstep.source
        (mem_wildAtoms.2 hstep.wild)
    exact hsame.trans (ih ((h.origin_iff_of_takesFrom htakes).1 hroot))

/-- Atoms in one group have the same origin. -/
theorem Steady.origin_iff_of_same (h : s.Steady) (hsame : s.traced.Same x y) :
    s.Origin x root ↔ s.Origin y root := by
  have hequivalence : Equivalence fun x y => ∀ root, s.Origin x root ↔ s.Origin y root :=
    ⟨fun _ _ => Iff.rfl, fun h root => (h root).symm, fun h h' root => (h root).trans (h' root)⟩
  refine RootCauses.rel_of_same_foldl hequivalence (RootCauses.traced_discrete s) (fun _ hkey => hkey) ?_ ?_
    x y hsame root
  · intro key hkey other _ hsource root
    exact h.origin_iff_of_takesFrom (h.source_mem hkey hsource).1
  · intro x y hxy root
    rw [RootCauses.eq_of_same_discrete hxy]

theorem nodup_wildAtoms (s : Store) : s.wildAtoms.Nodup := (SortedMap.nodup_keys s.env).filter _

/-- Tracing the groups of a store blames every unchecked atom that is to be blamed. -/
theorem get?_direct_traced (s : Store) (x : AtomKey) :
    s.traced.direct.get? x = if x ∈ s.wildAtoms then RootCauses.blamedFor s x else none :=
  RootCauses.get?_direct_foldl (nodup_wildAtoms s) (RootCauses.traced_discrete s) (fun _ hkey => hkey)
    (fun _ _ => rfl) x

/-- Where every source is unchecked, exactly the atoms with a reason of their own are blamed. -/
theorem get?_direct_traced_of_sources (hsources : ∀ key ∈ s.wildAtoms, ∀ other, s.wildSource key = .atom other →
    other ∈ s.wildAtoms) (x : AtomKey) :
    s.traced.direct.get? x = if x ∈ s.wildAtoms then RootCauses.ownReason s x else none := by
  rw [get?_direct_traced]
  split
  · next hx => exact RootCauses.blamedFor_eq_ownReason (hsources x hx)
  · rfl

/-- Exactly the pinned atoms are blamed, for the reasons of their constraints. -/
theorem Steady.direct_traced (h : s.Steady) {why : Explanation} :
    s.traced.direct.get? x = some why ↔ ∃ id c, s.PinnedBy x id c ∧ c.why = why := by
  rw [get?_direct_traced_of_sources fun key hkey other hsource => (h.source_mem hkey hsource).2]
  by_cases hx : x ∈ s.wildAtoms
  · rw [if_pos hx, h.ownReason_eq_some (mem_wildAtoms.1 hx)]
  · rw [if_neg hx]
    refine iff_of_false (fun he => nomatch he) ?_
    rintro ⟨id, c, hpin, -⟩
    exact hx (mem_wildAtoms.2 (h.explained.wild x id hpin.caused))

theorem Steady.contains_direct_traced (h : s.Steady) :
    s.traced.direct.contains x = true ↔ ∃ id c, s.PinnedBy x id c := by
  unfold SortedMap.contains
  rw [Option.isSome_iff_exists]
  simp only [h.direct_traced]
  constructor
  · rintro ⟨why, id, c, hpin, -⟩
    exact ⟨id, c, hpin⟩
  · rintro ⟨id, c, hpin⟩
    exact ⟨c.why, id, c, hpin, rfl⟩

/-- Every group has its root, so there is nothing to complete. -/
theorem Steady.ofStore_eq (h : s.Steady) : RootCauses.ofStore s = s.traced := by
  refine RootCauses.complete_eq_self (c := s.traced) fun x l hx => ?_
  have hwild := mem_wildAtoms.1 (((traced_traced s).covers x).1 (RootCauses.contains_iff.2 ⟨l, hx⟩))
  obtain ⟨root, hroot⟩ := h.exists_origin hwild
  obtain ⟨m, hm, hlabel⟩ := h.same_origin hwild hroot
  obtain rfl := Option.some.inj (hx.symm.trans hm)
  exact ⟨root, hlabel, h.contains_direct_traced.2 hroot.2⟩

/-- The group of a pinned atom has the atoms that go back to it. -/
theorem Steady.label_eq_iff (h : s.Steady) {l : AtomKey} {c : Constraint} (hpin : s.PinnedBy root id c)
    (hroot : s.traced.label.get? root = some l) :
    s.traced.label.get? x = some l ↔ s.Origin x root := by
  constructor
  · intro hx
    exact (h.origin_iff_of_same ⟨l, hx, hroot⟩).2 ⟨.refl, id, c, hpin⟩
  · intro hx
    have hwild : s.value x = .wild := by
      rcases hx.1.cases_head with rfl | ⟨y, hy, -⟩
      · exact h.explained.wild x id hpin.caused
      · exact h.value_of_takesFrom hy
    obtain ⟨m, hxm, hm⟩ := h.same_origin hwild hx
    rwa [Option.some.inj (hroot.symm.trans hm)]

/-- In the group of a pinned atom, no other atom is blamed. -/
theorem Steady.blamed_iff (h : s.Steady) {l : AtomKey} {c : Constraint} (hpin : s.PinnedBy root id c)
    (hroot : s.traced.label.get? root = some l) (hx : s.traced.label.get? x = some l) :
    s.traced.direct.contains x = true ↔ x = root := by
  rw [h.contains_direct_traced]
  constructor
  · rintro ⟨id', c', hpin'⟩
    exact (hpin'.eq_of_reflTransGen ((h.label_eq_iff hpin hroot).1 hx).1).symm
  · rintro rfl
    exact ⟨id, c, hpin⟩

/-- The group of an unchecked atom: its root is the atom's origin, its members are those with
that origin, only the root is blamed, and the reason is that of the constraint which pins it. -/
theorem Steady.group_of_origin (h : s.Steady) (hk : s.value k = .wild) :
    ∃ root id c group, Relation.ReflTransGen s.TakesFrom k root ∧ s.PinnedBy root id c ∧
      (RootCauses.ofStore s).find k = some root ∧ (RootCauses.ofStore s).group root = some group ∧
      (∀ x, x ∈ group ↔ Relation.ReflTransGen s.TakesFrom x root) ∧
      (∀ x ∈ group, (RootCauses.ofStore s).direct.contains x = true ↔ x = root) ∧
      (RootCauses.ofStore s).reason root = some c.why := by
  obtain ⟨root, hroot⟩ := h.exists_origin hk
  obtain ⟨l, hkl, hlabel⟩ := h.same_origin hk hroot
  obtain ⟨id, c, hpin⟩ := hroot.2
  rw [h.ofStore_eq]
  have hfind : ∀ x, s.traced.label.get? x = some l → s.traced.find x = some root := by
    intro x hx
    unfold RootCauses.find
    rw [hx, Option.bind_some, RootCauses.rootOf?_eq_some hlabel fun _ => h.blamed_iff hpin hlabel]
  have hisRoot : s.traced.isRoot root = true := by
    unfold RootCauses.isRoot
    rw [hfind root hlabel, beq_self_eq_true]
  refine ⟨root, id, c, s.traced.classOf l, hroot.1, hpin, hfind k hkl, ?_, fun x => ?_, fun x hx => ?_, ?_⟩
  · unfold RootCauses.group
    rw [if_pos hisRoot, hlabel, Option.map_some]
  · rw [RootCauses.mem_classOf, h.label_eq_iff hpin hlabel]
    exact ⟨fun hx => hx.1, fun hx => ⟨hx, id, c, hpin⟩⟩
  · exact h.blamed_iff hpin hlabel (RootCauses.mem_classOf.1 hx)
  · unfold RootCauses.reason
    rw [if_pos hisRoot]
    exact h.direct_traced.2 ⟨id, c, hpin, rfl⟩

end Store

end PointerKinds
