/-
What no call on a store takes back.

Atoms are never taken away, and nothing is ever taken out of a filter: taking out the negation
that put a kind there does not.  A constraint keeps what it says.  And it gets on record by being
imposed only; every other call at most moves it from one record to another, or off.

Each of these is said of one call, and of any list of calls where that is needed.
-/
import PointerKinds.Store.Sanity
import PointerKinds.Proofs.Store.Operations
import PointerKinds.Proofs.Solver.Edits

namespace PointerKinds

/-- The kind that a formula at top level bars an atom from. -/
def Formula.filter? : Formula → Option (AtomKey × Kind)
  | .not body => body.atomKind?
  | _ => none

namespace Store

/-- The filter that a constraint stands for at top level. -/
def filterOf? (s : Store) (id : ConstraintId) : Option (AtomKey × Kind) := (s.formula? id).bind (·.filter?)

variable {s t : Store} {id id' : ConstraintId} {key key' : AtomKey} {f : Formula} {k : Kind} {c : Operation}

/-! ### Atoms and filters -/

/-- Every atom of a store is one of another, with no less in its filter. -/
def FiltersKept (s t : Store) : Prop :=
  ∀ key a, s.atoms.get? key = some a → ∃ b, t.atoms.get? key = some b ∧ ∀ k ∈ a.forbidden, k ∈ b.forbidden

theorem FiltersKept.refl (s : Store) : s.FiltersKept s := fun _ a ha => ⟨a, ha, fun _ hk => hk⟩

theorem FiltersKept.trans {u : Store} (h : s.FiltersKept t) (h' : t.FiltersKept u) : s.FiltersKept u := by
  intro key a ha
  obtain ⟨b, hb, hab⟩ := h key a ha
  obtain ⟨c, hc, hbc⟩ := h' key b hb
  exact ⟨c, hc, fun k hk => hbc k (hab k hk)⟩

theorem FiltersKept.of_atoms_eq (h : t.atoms = s.atoms) : s.FiltersKept t := fun _ a ha => ⟨a, h ▸ ha, fun _ hk => hk⟩

theorem FiltersKept.of_sameFilters (h : s.SameFilters t) : s.FiltersKept t := by
  intro key a ha
  have hkey := h key
  rw [ha, Option.map_some] at hkey
  obtain ⟨b, hb, he⟩ := Option.map_eq_some_iff.1 hkey
  exact ⟨b, hb, fun _ hk => he ▸ hk⟩

theorem FiltersKept.foldl {α : Type} {step : Store → α → Store} (hstep : ∀ s x, FiltersKept s (step s x))
    (l : List α) (s : Store) : s.FiltersKept (l.foldl step s) := by
  induction l generalizing s with
  | nil => exact .refl s
  | cons x rest ih => exact (hstep s x).trans (ih _)

theorem FiltersKept.contains (h : s.FiltersKept t) (hkey : s.atoms.contains key = true) :
    t.atoms.contains key = true := by
  obtain ⟨a, ha⟩ := Option.isSome_iff_exists.1 hkey
  obtain ⟨b, hb, -⟩ := h key a ha
  exact Option.isSome_iff_exists.2 ⟨b, hb⟩

theorem forbids_iff : s.forbids key k = true ↔ ∃ a, s.atoms.get? key = some a ∧ k ∈ a.forbidden := by
  unfold forbids Atom.permits
  cases s.atoms.get? key with
  | none => simp
  | some a => simp [SortedSet.contains_iff]

theorem FiltersKept.forbids (h : s.FiltersKept t) (hk : s.forbids key k = true) : t.forbids key k = true := by
  obtain ⟨a, ha, hmem⟩ := forbids_iff.1 hk
  obtain ⟨b, hb, hab⟩ := h key a ha
  exact forbids_iff.2 ⟨b, hb, hab k hmem⟩

theorem filtersKept_ensureAtom (s : Store) (key : AtomKey) : s.FiltersKept (s.ensureAtom key) := by
  intro key' a ha
  refine ⟨a, ?_, fun _ hk => hk⟩
  rw [atoms_ensureAtom, if_neg]
  · exact ha
  · rintro ⟨rfl, hnone⟩
    exact nomatch ha.symm.trans hnone

theorem filtersKept_modifyAtom (s : Store) (key : AtomKey) {g : Atom → Atom}
    (hg : ∀ a, ∀ k ∈ a.forbidden, k ∈ (g a).forbidden) : s.FiltersKept (s.modifyAtom key g) := by
  intro key' a ha
  unfold modifyAtom
  simp only [SortedMap.get?_modify, ha]
  by_cases hk : key' = key
  · exact ⟨g a, if_pos hk, hg a⟩
  · exact ⟨a, if_neg hk, fun _ hmem => hmem⟩

theorem filtersKept_modifyAtomsOf (s : Store) (id : ConstraintId) {g : Atom → Atom}
    (hg : ∀ a, ∀ k ∈ a.forbidden, k ∈ (g a).forbidden) : s.FiltersKept (s.modifyAtomsOf id g) := by
  unfold modifyAtomsOf
  split
  · exact .foldl (fun s key => filtersKept_modifyAtom s key hg) _ s
  · exact .refl s

theorem filtersKept_imposeFilter (s : Store) (f : Formula) : s.FiltersKept (s.imposeFilter f) := by
  unfold imposeFilter
  split
  · split
    · exact (filtersKept_ensureAtom _ _).trans
        (filtersKept_modifyAtom _ _ fun _ _ hk => SortedSet.mem_insert.2 (.inr hk))
    · exact .refl s
  · exact .refl s

theorem filtersKept_attachAll (s : Store) (id : ConstraintId) (keys : List AtomKey) :
    s.FiltersKept (keys.foldl (attach id) s) :=
  .foldl (fun s key => (filtersKept_ensureAtom s key).trans
    (filtersKept_modifyAtom _ key (g := (·.attach id)) fun _ _ hk => hk)) keys s

theorem filtersKept_add (s : Store) (id : ConstraintId) : s.FiltersKept (s.add id) := by
  by_cases h : s.isAddable id = true
  · obtain ⟨f, hf⟩ := exists_formula?_of_isAddable h
    rw [add_of_isAddable h hf]
    exact ((filtersKept_imposeFilter s f).trans (filtersKept_attachAll _ id _)).trans (.of_atoms_eq rfl)
  · rw [add_of_not_isAddable h]
    exact .refl s

theorem filtersKept_remove (s : Store) (id : ConstraintId) : s.FiltersKept (s.remove id) := by
  unfold Store.remove
  split
  · exact FiltersKept.trans (.of_atoms_eq rfl) (filtersKept_modifyAtomsOf
      { s with topLevel := s.topLevel.erase id, erased := s.erased.erase id } id (g := (·.detach id)) fun _ _ hk => hk)
  · exact .refl s

theorem filtersKept_eraseAll (s : Store) (ids : List ConstraintId) : s.FiltersKept (ids.foldl Store.erase s) :=
  .of_sameFilters fun key => map_eraseAll forbidden_atom_erase ids s key

theorem filtersKept_restore (s : Store) (key : AtomKey) : s.FiltersKept (s.restore key) := by
  have hreinstate : ∀ (s : Store) (id : ConstraintId), s.FiltersKept (s.reinstate id) := fun s id => by
    refine FiltersKept.trans (.of_atoms_eq rfl)
      (filtersKept_modifyAtomsOf { s with erased := s.erased.erase id } id (g := (·.restore id)) fun a k hk => ?_)
    unfold Atom.restore
    split <;> exact hk
  exact (filtersKept_modifyAtom s key (g := (·.restoreAll)) fun _ _ hk => hk).trans (.foldl hreinstate _ _)

/-- No call takes an atom away, or anything out of a filter. -/
theorem filtersKept_perform (s : Store) (c : Operation) : s.FiltersKept (s.perform c).2 := by
  have hintern : ∀ c, s.FiltersKept (s.intern c).2 := fun c => .of_atoms_eq (intern_frame s c).1
  cases c with
  | register key => exact filtersKept_ensureAtom s key
  | forbid key k => exact filtersKept_modifyAtom s key fun _ _ hk => SortedSet.mem_insert.2 (.inr hk)
  | prefer key soft => exact filtersKept_modifyAtom s key fun _ _ hk => hk
  | createEq a b why => exact hintern _
  | createNot body =>
      rcases perform_createNot s body with he | ⟨c, he⟩ <;> rw [he]
      · exact .refl s
      · exact hintern c
  | createImplies premise conclusion =>
      rcases perform_createImplies s premise conclusion with he | ⟨c, he⟩ <;> rw [he]
      · exact .refl s
      · exact hintern c
  | add id => exact filtersKept_add s id
  | remove id => exact filtersKept_remove s id
  | erase id => exact filtersKept_eraseAll s [id]
  | restore key => exact filtersKept_restore s key
  | makeNonWild key region => exact .of_sameFilters (sameFilters_makeNonWild s key region)
  | eraseReason reason => exact (filtersKept_eraseAll s _).trans (.of_atoms_eq rfl)
  | reset | solve | startTrace | takeTrace => exact .of_atoms_eq rfl

theorem filtersKept_performAll (s : Store) (calls : List Operation) : s.FiltersKept (s.performAll calls) :=
  .foldl filtersKept_perform calls s

/-! ### What is on record -/

/-- What one store has on record of a constraint, another had before. -/
structure NoNews (s t : Store) (id : ConstraintId) : Prop where
  topLevel : id ∈ t.topLevel → id ∈ s.topLevel
  erased : id ∈ t.erased → id ∈ s.erased ∨ id ∈ s.topLevel
  recorded : ∀ key, t.ActiveAt key id ∨ t.ErasedAt key id → s.ActiveAt key id ∨ s.ErasedAt key id

theorem NoNews.refl (s : Store) (id : ConstraintId) : s.NoNews s id :=
  ⟨fun h => h, .inl, fun _ h => h⟩

theorem NoNews.trans {u : Store} (h : s.NoNews t id) (h' : t.NoNews u id) : s.NoNews u id where
  topLevel hid := h.topLevel (h'.topLevel hid)
  erased hid := (h'.erased hid).elim h.erased fun hid => .inr (h.topLevel hid)
  recorded key hkey := h.recorded key (h'.recorded key hkey)

theorem NoNews.of_records (htop : t.topLevel = s.topLevel) (herased : t.erased = s.erased)
    (hactive : ∀ key, t.ActiveAt key id ↔ s.ActiveAt key id)
    (herasedAt : ∀ key, t.ErasedAt key id ↔ s.ErasedAt key id) : s.NoNews t id where
  topLevel hid := htop ▸ hid
  erased hid := .inl (herased ▸ hid)
  recorded key := (or_congr (hactive key) (herasedAt key)).1

theorem NoNews.of_eq (hatoms : t.atoms = s.atoms) (htop : t.topLevel = s.topLevel) (herased : t.erased = s.erased) :
    s.NoNews t id :=
  .of_records htop herased (fun _ => by simp only [ActiveAt, hatoms]) (fun _ => by simp only [ErasedAt, hatoms])

theorem noNews_modifyAtom (s : Store) (key : AtomKey) {g : Atom → Atom} (hactive : ∀ a, (g a).active = a.active)
    (herased : ∀ a, (g a).erased = a.erased) : s.NoNews (s.modifyAtom key g) id := by
  refine .of_records rfl rfl (fun key' => ?_) (fun key' => ?_)
  · rw [activeAt_modifyAtom]
    by_cases hk : key' = key <;> simp [hk, hactive, ActiveAt]
  · rw [erasedAt_modifyAtom]
    by_cases hk : key' = key <;> simp [hk, herased, ErasedAt]

theorem noNews_intern (s : Store) (c : Constraint) : s.NoNews (s.intern c).2 id :=
  .of_eq (intern_frame s c).1 (intern_frame s c).2.1 (intern_frame s c).2.2

theorem noNews_add {i : ConstraintId} (hne : id ≠ i) : s.NoNews (s.add i) id := by
  by_cases h : s.isAddable i = true
  · obtain ⟨htop, herased, hactive, herasedAt⟩ := add_spec h
    refine ⟨fun hid => ((htop id).1 hid).resolve_left hne, fun hid => .inl (herased ▸ hid), fun key => ?_⟩
    rw [hactive, herasedAt]
    exact Or.imp_left fun ha => ha.resolve_right fun he => hne he.1
  · rw [add_of_not_isAddable h]
    exact .refl s id

theorem noNews_remove (s : Store) (i : ConstraintId) : s.NoNews (s.remove i) id := by
  by_cases h : i ∈ s.topLevel
  · obtain ⟨-, htop, herased, -⟩ := remove_frame h
    refine ⟨fun hid => ?_, fun hid => .inl ?_, fun key => ?_⟩
    · exact (SortedSet.mem_erase.1 (htop ▸ hid)).1
    · exact (SortedSet.mem_erase.1 (herased ▸ hid)).1
    · rw [activeAt_remove h, erasedAt_remove]
      exact Or.imp_left And.left
  · rw [remove_of_not_mem h]
    exact .refl s id

theorem noNews_eraseAll (s : Store) (ids : List ConstraintId) : s.NoNews (ids.foldl Store.erase s) id := by
  induction ids generalizing s with
  | nil => exact .refl s id
  | cons i rest ih =>
      refine NoNews.trans ?_ (ih (s.erase i))
      by_cases h : s.isActive i = true
      · refine ⟨fun hid => (erase_frame s i).2.1 ▸ hid, fun hid => ?_, fun key => ?_⟩
        · rcases (mem_erased_erase h).1 hid with rfl | hid
          · exact .inr (isActive_iff.1 h).1
          · exact .inl hid
        · rw [activeAt_erase h, erasedAt_erase h]
          rintro (⟨ha, -⟩ | he | ⟨-, -, ha⟩)
          · exact .inl ha
          · exact .inr he
          · exact .inl ha
      · rw [erase_of_not_active h]
        exact .refl s id

theorem noNews_restore (s : Store) (key : AtomKey) : s.NoNews (s.restore key) id := by
  obtain ⟨-, htop, herased, -⟩ := restore_frame s key
  refine ⟨fun hid => htop ▸ hid, fun hid => .inl ((herased id).1 hid).1, fun key' => ?_⟩
  rw [activeAt_restore, erasedAt_restore]
  rintro ((ha | ⟨he, -⟩) | ⟨he, -⟩)
  · exact .inl ha
  · exact .inr he
  · exact .inr he

/-- A constraint gets on record by being imposed only. -/
theorem noNews_perform (s : Store) (hc : c ≠ .add id) : s.NoNews (s.perform c).2 id := by
  cases c with
  | register key => exact .of_records rfl rfl (fun _ => activeAt_ensureAtom) (fun _ => erasedAt_ensureAtom)
  | forbid key k => exact noNews_modifyAtom s key (fun _ => rfl) (fun _ => rfl)
  | prefer key soft => exact noNews_modifyAtom s key (fun _ => rfl) (fun _ => rfl)
  | createEq a b why => exact noNews_intern s _
  | createNot body =>
      rcases perform_createNot s body with he | ⟨c, he⟩ <;> rw [he]
      · exact .refl s id
      · exact noNews_intern s c
  | createImplies premise conclusion =>
      rcases perform_createImplies s premise conclusion with he | ⟨c, he⟩ <;> rw [he]
      · exact .refl s id
      · exact noNews_intern s c
  | add i => exact noNews_add fun e => hc (e ▸ rfl)
  | remove i => exact noNews_remove s i
  | erase i => exact noNews_eraseAll s [i]
  | restore key => exact noNews_restore s key
  | makeNonWild key region =>
      show s.NoNews (s.makeNonWild key region).2 id
      unfold makeNonWild
      split
      · exact (noNews_eraseAll s _).trans (.of_eq rfl rfl rfl)
      · exact .refl s id
  | eraseReason reason => exact (noNews_eraseAll s _).trans (.of_eq rfl rfl rfl)
  | reset | solve | startTrace | takeTrace => exact .of_eq rfl rfl rfl

/-! ### Constraints that stand for filters -/

theorem filter?_eq_some : f.filter? = some (key, k) ↔ f = .bar key k := by
  constructor
  · intro h
    unfold Formula.filter? Formula.atomKind? at h
    split at h
    · split at h
      · obtain ⟨rfl, rfl⟩ := Prod.mk.inj (Option.some.inj h)
        rfl
      · exact nomatch h
    · exact nomatch h
  · rintro rfl
    rfl

theorem formula?_perform (hlt : id < s.arena.length) (c : Operation) : (s.perform c).2.formula? id = s.formula? id := by
  cases c with
  | createEq a b why => exact formula?_intern s _ hlt
  | createNot body =>
      rcases perform_createNot s body with he | ⟨c, he⟩ <;> rw [he]
      exact formula?_intern s c hlt
  | createImplies premise conclusion =>
      rcases perform_createImplies s premise conclusion with he | ⟨c, he⟩ <;> rw [he]
      exact formula?_intern s c hlt
  | add i => exact formula?_congr (arena_add s i) id
  | remove i => exact formula?_congr (arena_remove s i) id
  | erase i => exact formula?_congr (erase_frame s i).1 id
  | restore key => exact formula?_congr (restore_frame s key).1 id
  | makeNonWild key region => exact formula?_congr (arena_makeNonWild s key region) id
  | eraseReason reason => exact formula?_congr (eraseAll_frame s _).1 id
  | _ => rfl

theorem forbids_imposeFilter (h : f.filter? = some (key, k)) : (s.imposeFilter f).forbids key k = true := by
  obtain rfl := filter?_eq_some.1 h
  have hreg : (s.ensureAtom key).atoms.contains key = true := contains_ensureAtom.2 (.inl rfl)
  obtain ⟨a, ha⟩ := Option.isSome_iff_exists.1 hreg
  refine forbids_iff.2 ⟨a.forbid k, ?_, SortedSet.mem_insert.2 (.inl rfl)⟩
  show ((s.ensureAtom key).atoms.modify key _).get? key = _
  rw [SortedMap.get?_modify_self, ha]
  rfl

/-- A top-level constraint that stands for a filter is heeded. -/
theorem Reachable.forbids (h : s.Reachable) (hid : id ∈ s.topLevel) (hf : s.filterOf? id = some (key, k)) :
    s.forbids key k = true := by
  induction h with
  | empty => exact absurd hid (SortedSet.not_mem_empty id)
  | @perform s hs c ih =>
      by_cases hold : id ∈ s.topLevel
      · have hformula := formula?_perform (hs.filed.known id hold) c
        rw [filterOf?, hformula] at hf
        exact (filtersKept_perform s c).forbids (ih hold hf)
      · obtain rfl : c = .add id := Classical.byContradiction fun hc => hold ((noNews_perform s hc).topLevel hid)
        have haddable : s.isAddable id = true := Classical.byContradiction fun hnot =>
          hold (add_of_not_isAddable hnot ▸ hid)
        obtain ⟨f, hformula⟩ := exists_formula?_of_isAddable haddable
        have hf : f.filter? = some (key, k) := by
          have hsame : (s.add id).formula? id = some f := (formula?_congr (arena_add s id) id).trans hformula
          have hf : (s.add id).filterOf? id = some (key, k) := hf
          rwa [filterOf?, hsame] at hf
        show (s.add id).forbids key k = true
        rw [add_of_isAddable haddable hformula]
        exact (filtersKept_attachAll _ id _).forbids (forbids_imposeFilter hf)

end Store

end PointerKinds
