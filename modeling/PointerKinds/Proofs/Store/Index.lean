/-
What the atoms know about the constraints.

Which constraints are in force is recorded twice: once for the store as a whole, by
number, and once at every atom that a constraint mentions.  The solver follows the
second record only, so the two have to agree, and `Indexed` says that they do.  Erasing
and restoring change both records, and each change is described by its effect on the
two relations `ActiveAt` and `ErasedAt`; that every edit keeps the agreement is then
plain reasoning about membership.
-/
import PointerKinds.Proofs.Tables
import PointerKinds.Solver.Edit

namespace PointerKinds

namespace Store

variable {s t : Store} {id id' : ConstraintId} {key key' : AtomKey} {f : Formula}

/-- The constraint with a number mentions an atom. -/
def Mentions (s : Store) (id : ConstraintId) (key : AtomKey) : Prop :=
  ∃ f, s.formula? id = some f ∧ key ∈ f.mentions

/-- An atom counts a constraint among those in force. -/
def ActiveAt (s : Store) (key : AtomKey) (id : ConstraintId) : Prop :=
  ∃ a, s.atoms.get? key = some a ∧ id ∈ a.active

/-- An atom counts a constraint among the erased ones. -/
def ErasedAt (s : Store) (key : AtomKey) (id : ConstraintId) : Prop :=
  ∃ a, s.atoms.get? key = some a ∧ id ∈ a.erased

/-- The atoms and the store agree on what is in force. -/
structure Indexed (s : Store) : Prop where
  /-- Only constraints that exist are top-level. -/
  known : ∀ id ∈ s.topLevel, id < s.arena.length
  /-- Only top-level constraints are erased. -/
  suspended : ∀ id ∈ s.erased, id ∈ s.topLevel
  /-- Every atom that a top-level constraint mentions is registered. -/
  registered : ∀ id ∈ s.topLevel, ∀ key, s.Mentions id key → s.atoms.contains key = true
  active : ∀ key id, s.ActiveAt key id ↔ s.isActive id = true ∧ s.Mentions id key
  erased : ∀ key id, s.ErasedAt key id ↔ id ∈ s.erased ∧ s.Mentions id key

/-! ### Reading -/

theorem isActive_iff : s.isActive id = true ↔ id ∈ s.topLevel ∧ id ∉ s.erased := by
  simp only [isActive, Bool.and_eq_true, SortedSet.contains_iff, Bool.not_eq_true',
    SortedSet.contains_eq_false_iff]

theorem mem_active : id ∈ s.active ↔ s.isActive id = true := by
  unfold active
  rw [List.mem_filter, isActive_iff, ← SortedSet.mem_def, Bool.not_eq_true',
    SortedSet.contains_eq_false_iff]

theorem pairwise_active (s : Store) : s.active.Pairwise (· < ·) := s.topLevel.pairwise_toList.filter _

theorem mem_activeFormulas :
    (id, f) ∈ s.activeFormulas ↔ s.isActive id = true ∧ s.formula? id = some f := by
  unfold activeFormulas
  rw [List.mem_filterMap]
  constructor
  · rintro ⟨i, hi, h⟩
    obtain ⟨g, hg, he⟩ := Option.map_eq_some_iff.1 h
    obtain ⟨rfl, rfl⟩ := Prod.mk.inj he
    exact ⟨mem_active.1 hi, hg⟩
  · rintro ⟨hi, hf⟩
    exact ⟨id, mem_active.2 hi, by rw [hf]; rfl⟩

theorem pairwise_activeFormulas (s : Store) : s.activeFormulas.Pairwise fun c d => c.1 < d.1 := by
  refine List.pairwise_filterMap.2 (s.pairwise_active.imp fun {i j} hlt c hc d hd => ?_)
  obtain ⟨f, -, rfl⟩ := Option.map_eq_some_iff.1 hc
  obtain ⟨g, -, rfl⟩ := Option.map_eq_some_iff.1 hd
  exact hlt

theorem mem_formulasAt :
    (id, f) ∈ s.formulasAt key ↔ s.ActiveAt key id ∧ s.formula? id = some f := by
  unfold formulasAt ActiveAt
  cases ha : s.atoms.get? key with
  | none => simp
  | some a =>
      simp only [List.mem_filterMap, Option.some.injEq]
      constructor
      · rintro ⟨i, hi, h⟩
        obtain ⟨g, hg, he⟩ := Option.map_eq_some_iff.1 h
        obtain ⟨rfl, rfl⟩ := Prod.mk.inj he
        exact ⟨⟨a, rfl, hi⟩, hg⟩
      · rintro ⟨⟨a', rfl, hi⟩, hf⟩
        exact ⟨id, hi, by rw [hf]; rfl⟩

/-- An atom knows exactly the constraints in force that mention it. -/
theorem Indexed.mem_formulasAt_iff (h : s.Indexed) {c : ConstraintId × Formula} :
    c ∈ s.formulasAt key ↔ c ∈ s.activeFormulas ∧ key ∈ c.2.mentions := by
  obtain ⟨id, f⟩ := c
  rw [mem_formulasAt, mem_activeFormulas, h.active]
  constructor
  · rintro ⟨⟨hact, g, hg, hk⟩, hf⟩
    obtain rfl := Option.some.inj (hg.symm.trans hf)
    exact ⟨⟨hact, hf⟩, hk⟩
  · rintro ⟨⟨hact, hf⟩, hk⟩
    exact ⟨⟨hact, f, hf, hk⟩, hf⟩

theorem Indexed.contains_of_mem (h : s.Indexed) {c : ConstraintId × Formula}
    (hc : c ∈ s.activeFormulas) (hk : key ∈ c.2.mentions) : s.atoms.contains key = true := by
  obtain ⟨hact, hf⟩ := mem_activeFormulas.1 hc
  exact h.registered c.1 (isActive_iff.1 hact).1 key ⟨c.2, hf, hk⟩

/-! ### Changes that do not touch the index -/

/-- The index only depends on the constraints and on what the atoms record of them. -/
theorem Indexed.congr (h : s.Indexed) (harena : t.arena = s.arena)
    (htop : t.topLevel = s.topLevel) (herased : t.erased = s.erased)
    (hactive : ∀ key id, t.ActiveAt key id ↔ s.ActiveAt key id)
    (herasedAt : ∀ key id, t.ErasedAt key id ↔ s.ErasedAt key id)
    (hreg : ∀ key, s.atoms.contains key = true → t.atoms.contains key = true) : t.Indexed := by
  have hformula : ∀ id, t.formula? id = s.formula? id := fun id => by
    simp only [formula?, constraint?, harena]
  have hmentions : ∀ id key, t.Mentions id key ↔ s.Mentions id key := fun id key => by
    simp only [Mentions, hformula]
  have hact : ∀ id, t.isActive id = s.isActive id := fun id => by simp only [isActive, htop, herased]
  refine ⟨fun id hid => ?_, fun id hid => ?_, fun id hid key hk => ?_, fun key id => ?_, fun key id => ?_⟩
  · rw [harena]
    exact h.known id (htop ▸ hid)
  · rw [htop]
    exact h.suspended id (herased ▸ hid)
  · exact hreg key (h.registered id (htop ▸ hid) key ((hmentions id key).1 hk))
  · rw [hactive, h.active, hact, hmentions]
  · rw [herasedAt, h.erased, herased, hmentions]

/-- What does not touch the atoms or the constraints does not touch the index. -/
theorem Indexed.of_eq (h : s.Indexed) (hatoms : t.atoms = s.atoms) (harena : t.arena = s.arena)
    (htop : t.topLevel = s.topLevel) (herased : t.erased = s.erased) : t.Indexed :=
  h.congr harena htop herased (fun _ _ => by simp only [ActiveAt, hatoms])
    (fun _ _ => by simp only [ErasedAt, hatoms]) (fun _ hk => by rw [hatoms]; exact hk)

theorem Indexed.reset (h : s.Indexed) : s.reset.Indexed := h.of_eq rfl rfl rfl rfl

theorem Indexed.lower (h : s.Indexed) (keys : List AtomKey) : (s.lower keys).Indexed :=
  h.of_eq rfl rfl rfl rfl

theorem Indexed.commit (h : s.Indexed) (run : Run) : (s.commit run).Indexed := h.of_eq rfl rfl rfl rfl

theorem Indexed.solve (h : s.Indexed) : s.solve.2.Indexed := h.commit _

/-- Registering an atom tells it of no constraint. -/
theorem atoms_ensureAtom (s : Store) (key key' : AtomKey) :
    (s.ensureAtom key).atoms.get? key' =
      if key' = key ∧ s.atoms.get? key = none then some {} else s.atoms.get? key' :=
  SortedMap.get?_insertNew ..

theorem contains_ensureAtom :
    (s.ensureAtom key).atoms.contains key' = true ↔ key' = key ∨ s.atoms.contains key' = true :=
  SortedMap.contains_insertNew ..

theorem activeAt_ensureAtom : (s.ensureAtom key).ActiveAt key' id ↔ s.ActiveAt key' id := by
  unfold ActiveAt
  rw [atoms_ensureAtom]
  by_cases hk : key' = key ∧ s.atoms.get? key = none
  · obtain ⟨rfl, hnone⟩ := hk
    have : id ∉ (∅ : SortedSet ConstraintId) := SortedSet.not_mem_empty id
    simp [hnone, this]
  · rw [if_neg hk]

theorem erasedAt_ensureAtom : (s.ensureAtom key).ErasedAt key' id ↔ s.ErasedAt key' id := by
  unfold ErasedAt
  rw [atoms_ensureAtom]
  by_cases hk : key' = key ∧ s.atoms.get? key = none
  · obtain ⟨rfl, hnone⟩ := hk
    have : id ∉ (∅ : SortedSet ConstraintId) := SortedSet.not_mem_empty id
    simp [hnone, this]
  · rw [if_neg hk]

theorem Indexed.ensureAtom (h : s.Indexed) (key : AtomKey) : (s.ensureAtom key).Indexed :=
  h.congr rfl rfl rfl (fun _ _ => activeAt_ensureAtom) (fun _ _ => erasedAt_ensureAtom)
    (fun _ hk => contains_ensureAtom.2 (.inr hk))

/-! ### Changing one atom -/

theorem exists_map_eq_some {α β : Type} {o : Option α} {g : α → β} {P : β → Prop} :
    (∃ b, o.map g = some b ∧ P b) ↔ ∃ a, o = some a ∧ P (g a) := by
  cases o <;> simp

theorem contains_modifyAtom {g : Atom → Atom} :
    (s.modifyAtom key g).atoms.contains key' = s.atoms.contains key' := by
  unfold modifyAtom SortedMap.contains
  simp only [SortedMap.get?_modify]
  by_cases hk : key' = key <;> simp [hk]

theorem activeAt_modifyAtom {g : Atom → Atom} :
    (s.modifyAtom key g).ActiveAt key' id ↔
      ∃ a, s.atoms.get? key' = some a ∧ id ∈ (if key' = key then g a else a).active := by
  unfold ActiveAt modifyAtom
  simp only [SortedMap.get?_modify]
  by_cases hk : key' = key
  · subst hk
    simp only [if_true, exists_map_eq_some]
  · simp only [if_neg hk]

theorem erasedAt_modifyAtom {g : Atom → Atom} :
    (s.modifyAtom key g).ErasedAt key' id ↔
      ∃ a, s.atoms.get? key' = some a ∧ id ∈ (if key' = key then g a else a).erased := by
  unfold ErasedAt modifyAtom
  simp only [SortedMap.get?_modify]
  by_cases hk : key' = key
  · subst hk
    simp only [if_true, exists_map_eq_some]
  · simp only [if_neg hk]

/-- A change that leaves an atom's constraints alone. -/
theorem Indexed.modifyAtom (h : s.Indexed) (key : AtomKey) {g : Atom → Atom}
    (hactive : ∀ a, (g a).active = a.active) (herased : ∀ a, (g a).erased = a.erased) :
    (s.modifyAtom key g).Indexed := by
  refine h.congr rfl rfl rfl (fun key' id => ?_) (fun key' id => ?_) (fun key' hk => ?_)
  · rw [activeAt_modifyAtom]
    by_cases hk : key' = key <;> simp [hk, hactive, ActiveAt]
  · rw [erasedAt_modifyAtom]
    by_cases hk : key' = key <;> simp [hk, herased, ErasedAt]
  · rw [contains_modifyAtom]
    exact hk

theorem Indexed.forbid (h : s.Indexed) (key : AtomKey) (k : Kind) : (s.forbid key k).Indexed :=
  h.modifyAtom key (fun _ => rfl) (fun _ => rfl)

theorem Indexed.setSoft (h : s.Indexed) (key : AtomKey) (soft : SoftPreferences) :
    (s.setSoft key soft).Indexed :=
  h.modifyAtom key (fun _ => rfl) (fun _ => rfl)

/-! ### Creating constraints -/

theorem formula?_lt (h : s.formula? id = some f) : id < s.arena.length := by
  obtain ⟨c, hc, -⟩ := Option.map_eq_some_iff.1 h
  exact (List.getElem?_eq_some_iff.1 hc).1

/-- A formula stands for the first constraint that says it. -/
theorem find?_eq_some_iff : s.find? f = some id ↔ s.formula? id = some f ∧ ∀ i < id, s.formula? i ≠ some f := by
  have hformula : ∀ {i : ConstraintId} (hi : i < s.arena.length), s.formula? i = some s.arena[i].formula := fun hi => by
    rw [formula?, constraint?, List.getElem?_eq_getElem hi, Option.map_some]
  unfold find?
  rw [List.findIdx?_eq_some_iff_getElem]
  constructor
  · rintro ⟨hlt, hid, hbefore⟩
    refine ⟨(hformula hlt).trans (congrArg some (of_decide_eq_true hid)), fun i hi he => ?_⟩
    rw [hformula (Nat.lt_trans hi hlt)] at he
    exact hbefore i hi (decide_eq_true (Option.some.inj he))
  · rintro ⟨hid, hbefore⟩
    have hlt := formula?_lt hid
    rw [hformula hlt] at hid
    refine ⟨hlt, decide_eq_true (Option.some.inj hid), fun i hi he => ?_⟩
    exact hbefore i hi ((hformula (Nat.lt_trans hi hlt)).trans (congrArg some (of_decide_eq_true he)))

theorem formula?_ne_of_find? (h : s.find? f = none) (id : ConstraintId) : s.formula? id ≠ some f := by
  intro hf
  obtain ⟨c, hc, rfl⟩ := Option.map_eq_some_iff.1 hf
  have hne := List.findIdx?_eq_none_iff.1 h c (List.mem_of_getElem? hc)
  exact absurd hne (by simp)

/-- Creating a constraint changes no formula that is there. -/
theorem formula?_intern (s : Store) (c : Constraint) (hid : id < s.arena.length) :
    (s.intern c).2.formula? id = s.formula? id := by
  unfold intern
  split
  · rename_i i _
    simp only [formula?, constraint?, List.getElem?_modify]
    by_cases hi : i = id
    · subst hi
      cases s.arena[i]? <;> simp [Constraint.explainedBy]
    · simp [hi]
  · simp only [formula?, constraint?]
    rw [List.getElem?_append_left hid]

theorem arena_length_intern (s : Store) (c : Constraint) :
    s.arena.length ≤ (s.intern c).2.arena.length := by
  unfold intern
  split <;> simp

/-- Creating a constraint does not impose it. -/
theorem intern_frame (s : Store) (c : Constraint) :
    (s.intern c).2.atoms = s.atoms ∧ (s.intern c).2.topLevel = s.topLevel ∧
      (s.intern c).2.erased = s.erased := by
  unfold intern
  split <;> exact ⟨rfl, rfl, rfl⟩

theorem Indexed.intern (h : s.Indexed) (c : Constraint) : (s.intern c).2.Indexed := by
  obtain ⟨hatoms, htop, herased⟩ := intern_frame s c
  have hmentions : ∀ id ∈ s.topLevel, ∀ key, (s.intern c).2.Mentions id key ↔ s.Mentions id key :=
    fun id hid key => by simp only [Mentions, formula?_intern s c (h.known id hid)]
  have hact : ∀ id, (s.intern c).2.isActive id = s.isActive id := fun id => by
    simp only [isActive, htop, herased]
  refine ⟨fun id hid => ?_, fun id hid => ?_, fun id hid key hk => ?_, fun key id => ?_, fun key id => ?_⟩
  · exact Nat.lt_of_lt_of_le (h.known id (htop ▸ hid)) (arena_length_intern s c)
  · rw [htop]
    exact h.suspended id (herased ▸ hid)
  · rw [hatoms]
    rw [htop] at hid
    exact h.registered id hid key ((hmentions id hid key).1 hk)
  · have : (s.intern c).2.ActiveAt key id ↔ s.ActiveAt key id := by simp only [ActiveAt, hatoms]
    rw [this, h.active, hact]
    exact and_congr_right fun ha => (hmentions id (isActive_iff.1 ha).1 key).symm
  · have : (s.intern c).2.ErasedAt key id ↔ s.ErasedAt key id := by simp only [ErasedAt, hatoms]
    rw [this, h.erased, herased]
    exact and_congr_right fun he => (hmentions id (h.suspended id he) key).symm

/-! ### Imposing constraints -/

theorem Indexed.imposeFilter (h : s.Indexed) (f : Formula) : (s.imposeFilter f).Indexed := by
  unfold Store.imposeFilter
  split
  · split
    · exact (h.ensureAtom _).forbid _ _
    · exact h
  · exact h

theorem imposeFilter_frame (s : Store) (f : Formula) :
    (s.imposeFilter f).arena = s.arena ∧ (s.imposeFilter f).topLevel = s.topLevel ∧
      (s.imposeFilter f).erased = s.erased := by
  unfold Store.imposeFilter
  split
  · split <;> exact ⟨rfl, rfl, rfl⟩
  · exact ⟨rfl, rfl, rfl⟩

theorem attachAll_frame (s : Store) (id : ConstraintId) (keys : List AtomKey) :
    (keys.foldl (attach id) s).arena = s.arena ∧ (keys.foldl (attach id) s).topLevel = s.topLevel ∧
      (keys.foldl (attach id) s).erased = s.erased := by
  induction keys generalizing s with
  | nil => exact ⟨rfl, rfl, rfl⟩
  | cons key rest ih => exact ih (s.attach id key)

theorem attachAll_spec (id : ConstraintId) (keys : List AtomKey) (s : Store) (key' : AtomKey)
    (id' : ConstraintId) :
    ((keys.foldl (attach id) s).ActiveAt key' id' ↔ s.ActiveAt key' id' ∨ id' = id ∧ key' ∈ keys) ∧
      ((keys.foldl (attach id) s).ErasedAt key' id' ↔ s.ErasedAt key' id') ∧
      ((keys.foldl (attach id) s).atoms.contains key' = true ↔
        s.atoms.contains key' = true ∨ key' ∈ keys) := by
  induction keys generalizing s with
  | nil => simp
  | cons key rest ih =>
      obtain ⟨ih₁, ih₂, ih₃⟩ := ih (s.attach id key)
      have hreg : (s.attach id key).atoms.contains key' = true ↔
          key' = key ∨ s.atoms.contains key' = true := by
        unfold Store.attach
        rw [contains_modifyAtom, contains_ensureAtom]
      have hget : ∃ a, (s.ensureAtom key).atoms.get? key = some a :=
        Option.isSome_iff_exists.1 (contains_ensureAtom.2 (.inl rfl))
      have hact : (s.attach id key).ActiveAt key' id' ↔
          s.ActiveAt key' id' ∨ id' = id ∧ key' = key := by
        unfold Store.attach
        have hsame : (s.ensureAtom key).ActiveAt key' id' ↔ s.ActiveAt key' id' := activeAt_ensureAtom
        rw [activeAt_modifyAtom, ← hsame, ActiveAt]
        by_cases hk : key' = key
        · subst hk
          obtain ⟨a, ha⟩ := hget
          simp only [ha, Option.some.injEq, if_true, exists_eq_left', Atom.attach, SortedSet.mem_insert]
          simp [or_comm]
        · simp [hk]
      have her : (s.attach id key).ErasedAt key' id' ↔ s.ErasedAt key' id' := by
        unfold Store.attach
        have hsame : (s.ensureAtom key).ErasedAt key' id' ↔ s.ErasedAt key' id' := erasedAt_ensureAtom
        rw [erasedAt_modifyAtom, ← hsame, ErasedAt]
        by_cases hk : key' = key <;> simp [hk, Atom.attach]
      refine ⟨?_, ?_, ?_⟩
      · rw [List.foldl_cons, ih₁, hact, List.mem_cons, or_assoc, and_or_left]
      · rw [List.foldl_cons, ih₂, her]
      · rw [List.foldl_cons, ih₃, hreg, List.mem_cons]
        exact ⟨fun h => h.elim (·.elim (.inr ∘ .inl) .inl) (.inr ∘ .inr),
          fun h => h.elim (.inl ∘ .inr) (·.elim (.inl ∘ .inl) .inr)⟩

/-- Telling every atom of a constraint that was not top-level, and making it so. -/
theorem Indexed.attachAll (h : s.Indexed) (hf : s.formula? id = some f) (hne : id ∉ s.erased) :
    Indexed { f.atoms.toList.foldl (attach id) s with
      topLevel := (f.atoms.toList.foldl (attach id) s).topLevel.insert id } := by
  obtain ⟨harena, htop, herased⟩ := attachAll_frame s id f.atoms.toList
  have hspec := attachAll_spec id f.atoms.toList s
  generalize f.atoms.toList.foldl (attach id) s = t at *
  have hmentions : ∀ i key, t.Mentions i key ↔ s.Mentions i key := fun i key => by
    simp only [Mentions, formula?, constraint?, harena]
  have hself : ∀ key, s.Mentions id key ↔ key ∈ f.atoms.toList := by
    intro key
    rw [← SortedSet.mem_def, Formula.mem_atoms]
    constructor
    · rintro ⟨g, hg, hk⟩
      obtain rfl := Option.some.inj (hg.symm.trans hf)
      exact hk
    · exact fun hk => ⟨f, hf, hk⟩
  refine ⟨fun i hi => ?_, fun i hi => ?_, fun i hi key hk => ?_, fun key i => ?_, fun key i => ?_⟩
  · show i < t.arena.length
    rw [harena]
    rcases SortedSet.mem_insert.1 hi with rfl | hi
    · exact formula?_lt hf
    · exact h.known i (htop ▸ hi)
  · exact SortedSet.mem_insert.2 (.inr (htop ▸ h.suspended i (herased ▸ hi)))
  · have hk' : s.Mentions i key := (hmentions i key).1 hk
    rcases SortedSet.mem_insert.1 hi with rfl | hi
    · exact (hspec key i).2.2.2 (.inr ((hself key).1 hk'))
    · exact (hspec key i).2.2.2 (.inl (h.registered i (htop ▸ hi) key hk'))
  · show t.ActiveAt key i ↔ _ ∧ t.Mentions i key
    rw [(hspec key i).1, h.active, isActive_iff, isActive_iff, hmentions]
    show _ ↔ (i ∈ t.topLevel.insert id ∧ i ∉ t.erased) ∧ _
    rw [SortedSet.mem_insert, htop, herased]
    constructor
    · rintro (⟨⟨ht, he⟩, hm⟩ | ⟨rfl, hk⟩)
      · exact ⟨⟨.inr ht, he⟩, hm⟩
      · exact ⟨⟨.inl rfl, hne⟩, (hself key).2 hk⟩
    · rintro ⟨⟨rfl | ht, he⟩, hm⟩
      · exact .inr ⟨rfl, (hself key).1 hm⟩
      · exact .inl ⟨⟨ht, he⟩, hm⟩
  · show t.ErasedAt key i ↔ i ∈ t.erased ∧ t.Mentions i key
    rw [(hspec key i).2.1, h.erased, herased, hmentions]

theorem Indexed.add (h : s.Indexed) (id : ConstraintId) : (s.add id).Indexed := by
  unfold Store.add
  split
  · rename_i haddable
    simp only [isAddable, Bool.and_eq_true, decide_eq_true_eq, Bool.not_eq_true',
      SortedSet.contains_eq_false_iff] at haddable
    obtain ⟨⟨-, hnerased⟩, -⟩ := haddable
    split
    · rename_i f hf
      obtain ⟨harena, -, herased⟩ := imposeFilter_frame s f
      have hf' : (s.imposeFilter f).formula? id = some f := by
        simpa only [formula?, constraint?, harena] using hf
      exact (h.imposeFilter f).attachAll hf' (by rw [herased]; exact hnerased)
    · exact h
  · exact h

/-! ### Erasing and restoring -/

theorem modifyAll_frame (s : Store) (g : Atom → Atom) (keys : List AtomKey) :
    (keys.foldl (fun s key => s.modifyAtom key g) s).arena = s.arena ∧
      (keys.foldl (fun s key => s.modifyAtom key g) s).topLevel = s.topLevel ∧
      (keys.foldl (fun s key => s.modifyAtom key g) s).erased = s.erased ∧
      (keys.foldl (fun s key => s.modifyAtom key g) s).env = s.env ∧
      (keys.foldl (fun s key => s.modifyAtom key g) s).forcedBy = s.forcedBy := by
  induction keys generalizing s with
  | nil => exact ⟨rfl, rfl, rfl, rfl, rfl⟩
  | cons key rest ih => exact ih (s.modifyAtom key g)

theorem modifyAtomsOf_frame (s : Store) (id : ConstraintId) (g : Atom → Atom) :
    (s.modifyAtomsOf id g).arena = s.arena ∧ (s.modifyAtomsOf id g).topLevel = s.topLevel ∧
      (s.modifyAtomsOf id g).erased = s.erased ∧ (s.modifyAtomsOf id g).env = s.env ∧
      (s.modifyAtomsOf id g).forcedBy = s.forcedBy := by
  unfold modifyAtomsOf
  split
  · exact modifyAll_frame s g _
  · exact ⟨rfl, rfl, rfl, rfl, rfl⟩

theorem atoms_modifyAll (g : Atom → Atom) {keys : List AtomKey} (hnodup : keys.Nodup) (s : Store)
    (key' : AtomKey) :
    (keys.foldl (fun s key => s.modifyAtom key g) s).atoms.get? key' =
      if key' ∈ keys then (s.atoms.get? key').map g else s.atoms.get? key' := by
  induction keys generalizing s with
  | nil => simp
  | cons key rest ih =>
      obtain ⟨hnot, hrest⟩ := List.nodup_cons.1 hnodup
      rw [List.foldl_cons, ih hrest]
      simp only [Store.modifyAtom, SortedMap.get?_modify, List.mem_cons]
      by_cases hk : key' = key
      · subst hk
        simp [hnot]
      · simp [hk]

open Classical in
theorem atoms_modifyAtomsOf (s : Store) (id : ConstraintId) (g : Atom → Atom) (key : AtomKey) :
    (s.modifyAtomsOf id g).atoms.get? key =
      if s.Mentions id key then (s.atoms.get? key).map g else s.atoms.get? key := by
  unfold modifyAtomsOf Mentions
  cases hf : s.formula? id with
  | none => simp
  | some f =>
      simp only [Option.some.injEq, exists_eq_left']
      rw [atoms_modifyAll g (SortedSet.nodup_toList _)]
      simp only [← SortedSet.mem_def, Formula.mem_atoms]

theorem contains_modifyAtomsOf (s : Store) (id : ConstraintId) (g : Atom → Atom) (key : AtomKey) :
    (s.modifyAtomsOf id g).atoms.contains key = s.atoms.contains key := by
  unfold SortedMap.contains
  rw [atoms_modifyAtomsOf]
  split <;> simp

/-- A property of the record at an atom, after a change of the atoms that a constraint mentions. -/
theorem exists_modifyAtomsOf (s : Store) (id : ConstraintId) (g : Atom → Atom) (key : AtomKey)
    (P : Atom → Prop) :
    (∃ a, (s.modifyAtomsOf id g).atoms.get? key = some a ∧ P a) ↔
      ∃ a, s.atoms.get? key = some a ∧ (s.Mentions id key → P (g a)) ∧ (¬ s.Mentions id key → P a) := by
  rw [atoms_modifyAtomsOf]
  by_cases hm : s.Mentions id key
  · simp only [hm, if_true, exists_map_eq_some, forall_const, not_true, false_imp_iff, and_true]
  · simp only [hm, if_false, false_imp_iff, not_false_iff, forall_const, true_and]

/-- The atoms that a constraint mentions drop it from one of their two records. -/
theorem exists_modifyAtomsOf_drop (s : Store) {id id' : ConstraintId} {g : Atom → Atom}
    (part : Atom → SortedSet ConstraintId) (hg : ∀ a, id' ∈ part (g a) ↔ id' ∈ part a ∧ id' ≠ id)
    (key : AtomKey) :
    (∃ a, (s.modifyAtomsOf id g).atoms.get? key = some a ∧ id' ∈ part a) ↔
      (∃ a, s.atoms.get? key = some a ∧ id' ∈ part a) ∧ ¬ (id' = id ∧ s.Mentions id' key) := by
  rw [exists_modifyAtomsOf s id g key fun a => id' ∈ part a]
  simp only [hg]
  constructor
  · rintro ⟨a, ha, hyes, hno⟩
    by_cases hm : s.Mentions id key
    · obtain ⟨hmem, hne⟩ := hyes hm
      exact ⟨⟨a, ha, hmem⟩, fun he => hne he.1⟩
    · exact ⟨⟨a, ha, hno hm⟩, fun he => hm (he.1 ▸ he.2)⟩
  · rintro ⟨⟨a, ha, hmem⟩, hkept⟩
    exact ⟨a, ha, fun hm => ⟨hmem, fun he => hkept ⟨he, he ▸ hm⟩⟩, fun _ => hmem⟩

/-- The atoms that a constraint mentions take it over from one of their two records into the other. -/
theorem exists_modifyAtomsOf_take (s : Store) {id id' : ConstraintId} {g : Atom → Atom}
    (part other : Atom → SortedSet ConstraintId)
    (hg : ∀ a, id' ∈ part (g a) ↔ id' ∈ part a ∨ id' = id ∧ id ∈ other a) (key : AtomKey) :
    (∃ a, (s.modifyAtomsOf id g).atoms.get? key = some a ∧ id' ∈ part a) ↔
      (∃ a, s.atoms.get? key = some a ∧ id' ∈ part a) ∨
        id' = id ∧ s.Mentions id' key ∧ ∃ a, s.atoms.get? key = some a ∧ id' ∈ other a := by
  rw [exists_modifyAtomsOf s id g key fun a => id' ∈ part a]
  simp only [hg]
  constructor
  · rintro ⟨a, ha, hyes, hno⟩
    by_cases hm : s.Mentions id key
    · rcases hyes hm with hmem | ⟨rfl, hmem⟩
      · exact .inl ⟨a, ha, hmem⟩
      · exact .inr ⟨rfl, hm, a, ha, hmem⟩
    · exact .inl ⟨a, ha, hno hm⟩
  · rintro (⟨a, ha, hmem⟩ | ⟨rfl, hm, a, ha, hmem⟩)
    · exact ⟨a, ha, fun _ => .inl hmem, fun _ => hmem⟩
    · exact ⟨a, ha, fun _ => .inr ⟨rfl, hmem⟩, fun hn => absurd hm hn⟩

end Store

namespace Atom

variable {a : Atom} {id id' : ConstraintId}

theorem mem_active_erase : id' ∈ (a.erase id).active ↔ id' ∈ a.active ∧ id' ≠ id := by
  unfold erase
  split
  · exact SortedSet.mem_erase
  · rename_i h
    rw [SortedSet.contains_iff] at h
    exact ⟨fun hi => ⟨hi, fun e => h (e ▸ hi)⟩, fun hi => hi.1⟩

theorem mem_erased_erase : id' ∈ (a.erase id).erased ↔ id' ∈ a.erased ∨ id' = id ∧ id ∈ a.active := by
  unfold erase
  split
  · rename_i h
    rw [SortedSet.contains_iff] at h
    rw [SortedSet.mem_insert, or_comm]
    simp [h]
  · rename_i h
    rw [SortedSet.contains_iff] at h
    simp [h]

theorem mem_active_restore : id' ∈ (a.restore id).active ↔ id' ∈ a.active ∨ id' = id ∧ id ∈ a.erased := by
  unfold restore
  split
  · rename_i h
    rw [SortedSet.contains_iff] at h
    rw [SortedSet.mem_insert, or_comm]
    simp [h]
  · rename_i h
    rw [SortedSet.contains_iff] at h
    simp [h]

theorem mem_erased_restore : id' ∈ (a.restore id).erased ↔ id' ∈ a.erased ∧ id' ≠ id := by
  unfold restore
  split
  · exact SortedSet.mem_erase
  · rename_i h
    rw [SortedSet.contains_iff] at h
    exact ⟨fun hi => ⟨hi, fun e => h (e ▸ hi)⟩, fun hi => hi.1⟩

end Atom

namespace Store

variable {s : Store} {id id' : ConstraintId} {key : AtomKey} {f : Formula}

theorem erase_frame (s : Store) (id : ConstraintId) :
    (s.erase id).arena = s.arena ∧ (s.erase id).topLevel = s.topLevel ∧
      (s.erase id).env = s.env ∧ (s.erase id).forcedBy = s.forcedBy := by
  unfold Store.erase
  split
  · obtain ⟨h₁, h₂, -, h₄, h₅⟩ :=
      modifyAtomsOf_frame { s with erased := s.erased.insert id } id (·.erase id)
    exact ⟨h₁, h₂, h₄, h₅⟩
  · exact ⟨rfl, rfl, rfl, rfl⟩

theorem contains_erase (s : Store) (id : ConstraintId) (key : AtomKey) :
    (s.erase id).atoms.contains key = s.atoms.contains key := by
  unfold Store.erase
  split
  · exact contains_modifyAtomsOf ..
  · rfl

/-- Erasing a constraint takes it, and only it, out of force. -/
theorem isActive_erase : (s.erase id).isActive id' = true ↔ s.isActive id' = true ∧ id' ≠ id := by
  unfold Store.erase
  split
  · obtain ⟨-, htop, herased, -⟩ :=
      modifyAtomsOf_frame { s with erased := s.erased.insert id } id (·.erase id)
    rw [isActive_iff, isActive_iff, htop, herased]
    show id' ∈ s.topLevel ∧ id' ∉ s.erased.insert id ↔ _
    rw [SortedSet.mem_insert, not_or]
    rw [and_comm (a := ¬ id' = id), ← and_assoc]
  · rename_i h
    exact ⟨fun h' => ⟨h', fun e => h (e ▸ h')⟩, fun h' => h'.1⟩

theorem erase_of_not_active (hid : ¬ s.isActive id = true) : s.erase id = s := if_neg hid

theorem mem_erased_erase (hid : s.isActive id = true) : id' ∈ (s.erase id).erased ↔ id' = id ∨ id' ∈ s.erased := by
  unfold Store.erase
  rw [if_pos hid]
  obtain ⟨-, -, herased, -⟩ := modifyAtomsOf_frame { s with erased := s.erased.insert id } id (·.erase id)
  rw [herased]
  exact SortedSet.mem_insert

theorem activeAt_erase (hid : s.isActive id = true) :
    (s.erase id).ActiveAt key id' ↔ s.ActiveAt key id' ∧ ¬ (id' = id ∧ s.Mentions id' key) := by
  unfold Store.erase
  rw [if_pos hid]
  exact exists_modifyAtomsOf_drop _ Atom.active (fun _ => Atom.mem_active_erase) key

theorem erasedAt_erase (hid : s.isActive id = true) :
    (s.erase id).ErasedAt key id' ↔
      s.ErasedAt key id' ∨ id' = id ∧ s.Mentions id' key ∧ s.ActiveAt key id' := by
  unfold Store.erase
  rw [if_pos hid]
  exact exists_modifyAtomsOf_take _ Atom.erased Atom.active (fun _ => Atom.mem_erased_erase) key

theorem Indexed.erase (h : s.Indexed) (id : ConstraintId) : (s.erase id).Indexed := by
  by_cases hid : s.isActive id = true
  · obtain ⟨harena, htop, -⟩ := erase_frame s id
    have hmentions : ∀ i key, (s.erase id).Mentions i key ↔ s.Mentions i key := fun i key => by
      simp only [Mentions, formula?, constraint?, harena]
    refine ⟨fun i hi => ?_, fun i hi => ?_, fun i hi key hk => ?_, fun key i => ?_, fun key i => ?_⟩
    · rw [harena]
      exact h.known i (htop ▸ hi)
    · rw [htop]
      rcases (mem_erased_erase hid).1 hi with rfl | hi
      · exact (isActive_iff.1 hid).1
      · exact h.suspended i hi
    · rw [contains_erase]
      exact h.registered i (htop ▸ hi) key ((hmentions i key).1 hk)
    · rw [activeAt_erase hid, isActive_erase, hmentions, h.active]
      constructor
      · rintro ⟨⟨hi, hm⟩, hkept⟩
        exact ⟨⟨hi, fun he => hkept ⟨he, hm⟩⟩, hm⟩
      · rintro ⟨⟨hi, hne⟩, hm⟩
        exact ⟨⟨hi, hm⟩, fun he => hne he.1⟩
    · rw [erasedAt_erase hid, mem_erased_erase hid, hmentions, h.erased, h.active]
      constructor
      · rintro (⟨hi, hm⟩ | ⟨he, hm, -⟩)
        · exact ⟨.inr hi, hm⟩
        · exact ⟨.inl he, hm⟩
      · rintro ⟨rfl | hi, hm⟩
        · exact .inr ⟨rfl, hm, hid, hm⟩
        · exact .inl ⟨hi, hm⟩
  · rwa [erase_of_not_active hid]

theorem remove_frame (hid : id ∈ s.topLevel) :
    (s.remove id).arena = s.arena ∧ (s.remove id).topLevel = s.topLevel.erase id ∧
      (s.remove id).erased = s.erased.erase id ∧ (s.remove id).env = s.env ∧
      (s.remove id).forcedBy = s.forcedBy := by
  unfold Store.remove
  rw [if_pos (SortedSet.contains_iff.2 hid)]
  exact modifyAtomsOf_frame ..

theorem contains_remove (s : Store) (id : ConstraintId) (key : AtomKey) :
    (s.remove id).atoms.contains key = s.atoms.contains key := by
  unfold Store.remove
  split
  · exact contains_modifyAtomsOf ..
  · rfl

theorem remove_of_not_mem (hid : id ∉ s.topLevel) : s.remove id = s :=
  if_neg fun h => hid (SortedSet.contains_iff.1 h)

/-- Taking a constraint out takes it off the records of those in force, and only off those. -/
theorem activeAt_remove (hid : id ∈ s.topLevel) :
    (s.remove id).ActiveAt key id' ↔ s.ActiveAt key id' ∧ ¬ (id' = id ∧ s.Mentions id' key) := by
  unfold Store.remove
  rw [if_pos (SortedSet.contains_iff.2 hid)]
  exact exists_modifyAtomsOf_drop _ Atom.active (fun _ => SortedSet.mem_erase) key

theorem erasedAt_remove : (s.remove id).ErasedAt key id' ↔ s.ErasedAt key id' := by
  unfold Store.remove
  split
  · refine (exists_modifyAtomsOf _ id _ key fun a => id' ∈ a.erased).trans ?_
    constructor
    · rintro ⟨a, ha, hyes, hno⟩
      exact ⟨a, ha, (Classical.em _).elim hyes hno⟩
    · rintro ⟨a, ha, hmem⟩
      exact ⟨a, ha, fun _ => hmem, fun _ => hmem⟩
  · rfl

/-- Taking out a constraint that is not erased. -/
theorem Indexed.remove (h : s.Indexed) (hid : id ∉ s.erased) : (s.remove id).Indexed := by
  by_cases hmem : id ∈ s.topLevel
  · obtain ⟨harena, htop, herased, -⟩ := remove_frame hmem
    have hmentions : ∀ i key, (s.remove id).Mentions i key ↔ s.Mentions i key := fun i key => by
      simp only [Mentions, formula?, constraint?, harena]
    have htop : ∀ i, i ∈ (s.remove id).topLevel ↔ i ∈ s.topLevel ∧ i ≠ id := fun i => by
      rw [htop]
      exact SortedSet.mem_erase
    have herased : ∀ i, i ∈ (s.remove id).erased ↔ i ∈ s.erased := fun i => by
      rw [herased]
      exact SortedSet.mem_erase.trans ⟨fun hi => hi.1, fun hi => ⟨hi, fun e => hid (e ▸ hi)⟩⟩
    refine ⟨fun i hi => ?_, fun i hi => ?_, fun i hi key hk => ?_, fun key i => ?_, fun key i => ?_⟩
    · rw [harena]
      exact h.known i ((htop i).1 hi).1
    · rw [herased] at hi
      exact (htop i).2 ⟨h.suspended i hi, fun e => hid (e ▸ hi)⟩
    · rw [contains_remove]
      exact h.registered i ((htop i).1 hi).1 key ((hmentions i key).1 hk)
    · rw [activeAt_remove hmem, hmentions, isActive_iff, htop, herased, h.active, isActive_iff]
      constructor
      · rintro ⟨⟨⟨ht, he⟩, hm⟩, hkept⟩
        exact ⟨⟨⟨ht, fun e => hkept ⟨e, hm⟩⟩, he⟩, hm⟩
      · rintro ⟨⟨⟨ht, hne⟩, he⟩, hm⟩
        exact ⟨⟨⟨ht, he⟩, hm⟩, fun e => hne e.1⟩
    · rw [erasedAt_remove, hmentions, herased, h.erased]
  · rwa [remove_of_not_mem hmem]

theorem Indexed.eraseAll (h : s.Indexed) (ids : List ConstraintId) : (ids.foldl Store.erase s).Indexed := by
  induction ids generalizing s with
  | nil => exact h
  | cons id rest ih => exact ih (h.erase id)

theorem eraseAll_frame (s : Store) (ids : List ConstraintId) :
    (ids.foldl Store.erase s).arena = s.arena ∧ (ids.foldl Store.erase s).topLevel = s.topLevel ∧
      (ids.foldl Store.erase s).env = s.env ∧ (ids.foldl Store.erase s).forcedBy = s.forcedBy := by
  induction ids generalizing s with
  | nil => exact ⟨rfl, rfl, rfl, rfl⟩
  | cons id rest ih =>
      obtain ⟨h₁, h₂, h₃, h₄⟩ := ih (s.erase id)
      obtain ⟨e₁, e₂, e₃, e₄⟩ := erase_frame s id
      exact ⟨h₁.trans e₁, h₂.trans e₂, h₃.trans e₃, h₄.trans e₄⟩

/-- Erasing touches nothing of an atom but its records of constraints. -/
theorem map_eraseAll {β : Type} {g : Atom → β} (hg : ∀ a id, g (a.erase id) = g a)
    (ids : List ConstraintId) (s : Store) (key : AtomKey) :
    ((ids.foldl Store.erase s).atoms.get? key).map g = (s.atoms.get? key).map g := by
  induction ids generalizing s with
  | nil => rfl
  | cons id rest ih =>
      rw [List.foldl_cons, ih]
      unfold Store.erase
      split
      · rw [atoms_modifyAtomsOf]
        split
        · rw [Option.map_map]
          exact Option.map_congr fun a _ => hg a id
        · rfl
      · rfl

theorem forbidden_atom_erase (a : Atom) (id : ConstraintId) : (a.erase id).forbidden = a.forbidden := by
  unfold Atom.erase
  split <;> rfl

theorem soft_atom_erase (a : Atom) (id : ConstraintId) : (a.erase id).soft = a.soft := by
  unfold Atom.erase
  split <;> rfl

/-- Exactly the constraints erased are out of force. -/
theorem mem_activeFormulas_eraseAll {ids : List ConstraintId} :
    (id, f) ∈ (ids.foldl Store.erase s).activeFormulas ↔ (id, f) ∈ s.activeFormulas ∧ id ∉ ids := by
  induction ids generalizing s with
  | nil => simp
  | cons i rest ih =>
      rw [List.foldl_cons, ih, mem_activeFormulas, mem_activeFormulas, isActive_erase,
        List.mem_cons, not_or]
      have hformula : (s.erase i).formula? id = s.formula? id := by
        simp only [formula?, constraint?, (erase_frame s i).1]
      rw [hformula]
      constructor
      · rintro ⟨⟨⟨ha, hn⟩, hf⟩, hr⟩
        exact ⟨⟨ha, hf⟩, hn, hr⟩
      · rintro ⟨⟨ha, hf⟩, hn, hr⟩
        exact ⟨⟨⟨ha, hn⟩, hf⟩, hr⟩

theorem activeAt_reinstate :
    (s.reinstate id).ActiveAt key id' ↔
      s.ActiveAt key id' ∨ id' = id ∧ s.Mentions id' key ∧ s.ErasedAt key id' :=
  exists_modifyAtomsOf_take _ Atom.active Atom.erased (fun _ => Atom.mem_active_restore) key

theorem erasedAt_reinstate :
    (s.reinstate id).ErasedAt key id' ↔ s.ErasedAt key id' ∧ ¬ (id' = id ∧ s.Mentions id' key) :=
  exists_modifyAtomsOf_drop _ Atom.erased (fun _ => Atom.mem_erased_restore) key

/-- What putting constraints back in force one by one does to the two records. -/
theorem reinstateAll_spec (ids : List ConstraintId) (s : Store) :
    (ids.foldl reinstate s).arena = s.arena ∧ (ids.foldl reinstate s).topLevel = s.topLevel ∧
      (∀ i, i ∈ (ids.foldl reinstate s).erased ↔ i ∈ s.erased ∧ i ∉ ids) ∧
      (∀ key, (ids.foldl reinstate s).atoms.contains key = s.atoms.contains key) ∧
      (∀ key i, (ids.foldl reinstate s).ActiveAt key i ↔
        s.ActiveAt key i ∨ i ∈ ids ∧ s.Mentions i key ∧ s.ErasedAt key i) ∧
      (∀ key i, (ids.foldl reinstate s).ErasedAt key i ↔
        s.ErasedAt key i ∧ ¬ (i ∈ ids ∧ s.Mentions i key)) := by
  induction ids generalizing s with
  | nil => simp
  | cons id rest ih =>
      obtain ⟨harena', htop', herased', hreg', hactive', herasedAt'⟩ := ih (s.reinstate id)
      obtain ⟨harena, htop, herased, -⟩ :=
        modifyAtomsOf_frame { s with erased := s.erased.erase id } id (·.restore id)
      have harena : (s.reinstate id).arena = s.arena := harena
      have htop : (s.reinstate id).topLevel = s.topLevel := htop
      have herased : (s.reinstate id).erased = s.erased.erase id := herased
      have hmentions : ∀ i key, (s.reinstate id).Mentions i key ↔ s.Mentions i key := fun i key => by
        simp only [Mentions, formula?, constraint?, harena]
      refine ⟨harena'.trans harena, htop'.trans htop, fun i => ?_, fun key => ?_, fun key i => ?_,
        fun key i => ?_⟩
      · rw [List.foldl_cons, herased', herased, SortedSet.mem_erase, List.mem_cons, not_or, and_assoc]
      · rw [List.foldl_cons, hreg']
        exact contains_modifyAtomsOf ..
      · rw [List.foldl_cons, hactive', activeAt_reinstate, hmentions, erasedAt_reinstate, List.mem_cons]
        grind
      · rw [List.foldl_cons, herasedAt', erasedAt_reinstate, hmentions, List.mem_cons]
        grind

theorem mem_restorable : id ∈ s.restorable key ↔ s.ErasedAt key id := by
  unfold restorable ErasedAt
  cases s.atoms.get? key with
  | none => simp
  | some a => simp [SortedSet.mem_def]

/-- Restoring from an atom takes what it remembers, and nothing else, off the erased constraints. -/
theorem restore_frame (s : Store) (key : AtomKey) :
    (s.restore key).arena = s.arena ∧ (s.restore key).topLevel = s.topLevel ∧
      (∀ i, i ∈ (s.restore key).erased ↔ i ∈ s.erased ∧ i ∉ s.restorable key) ∧
      ∀ k, (s.restore key).atoms.contains k = s.atoms.contains k := by
  obtain ⟨harena, htop, herased, hreg, -⟩ :=
    reinstateAll_spec (s.restorable key) (s.modifyAtom key (·.restoreAll))
  exact ⟨harena, htop, herased, fun k => (hreg k).trans contains_modifyAtom⟩

/-- Restoring from an atom puts what it has on record back in force, for the atom itself and for
every atom that has it on record too and is mentioned. -/
theorem activeAt_restore :
    (s.restore key).ActiveAt key' id ↔ s.ActiveAt key' id ∨
      s.ErasedAt key' id ∧ (key' = key ∨ id ∈ s.restorable key ∧ s.Mentions id key') := by
  obtain ⟨-, -, -, -, hactive, -⟩ :=
    reinstateAll_spec (s.restorable key) (s.modifyAtom key (·.restoreAll))
  have hmentions : (s.modifyAtom key (·.restoreAll)).Mentions id key' ↔ s.Mentions id key' := Iff.rfl
  refine (hactive key' id).trans ?_
  rw [activeAt_modifyAtom, erasedAt_modifyAtom, hmentions]
  by_cases hk : key' = key
  · subst hk
    have hnone : id ∉ (∅ : SortedSet ConstraintId) := SortedSet.not_mem_empty id
    simp only [if_true, Atom.restoreAll, SortedSet.mem_union, ActiveAt, ErasedAt]
    cases s.atoms.get? key' <;> simp [hnone]
  · simp only [ActiveAt, ErasedAt, eq_false hk, if_false, false_or]
    rw [← and_assoc, and_comm (a := id ∈ s.restorable key ∧ s.Mentions id key')]

theorem erasedAt_restore :
    (s.restore key).ErasedAt key' id ↔
      s.ErasedAt key' id ∧ key' ≠ key ∧ ¬ (id ∈ s.restorable key ∧ s.Mentions id key') := by
  obtain ⟨-, -, -, -, -, herased⟩ :=
    reinstateAll_spec (s.restorable key) (s.modifyAtom key (·.restoreAll))
  have hmentions : (s.modifyAtom key (·.restoreAll)).Mentions id key' ↔ s.Mentions id key' := Iff.rfl
  refine (herased key' id).trans ?_
  rw [erasedAt_modifyAtom, hmentions]
  by_cases hk : key' = key
  · subst hk
    have hnone : id ∉ (∅ : SortedSet ConstraintId) := SortedSet.not_mem_empty id
    simp [Atom.restoreAll, hnone]
  · simp [hk, ErasedAt]

theorem Indexed.restore (h : s.Indexed) (key : AtomKey) : (s.restore key).Indexed := by
  have hrest : ∀ i, i ∈ s.restorable key ↔ i ∈ s.erased ∧ s.Mentions i key := fun i => by
    rw [mem_restorable, h.erased]
  obtain ⟨harena, htop, herased, hreg⟩ := restore_frame s key
  have hmentions : ∀ i k, (s.restore key).Mentions i k ↔ s.Mentions i k := fun i k => by
    simp only [Mentions, formula?, constraint?, harena]
  refine ⟨fun i hi => ?_, fun i hi => ?_, fun i hi k hk => ?_, fun k i => ?_, fun k i => ?_⟩
  · rw [harena]
    exact h.known i (htop ▸ hi)
  · rw [htop]
    exact h.suspended i ((herased i).1 hi).1
  · rw [hreg]
    exact h.registered i (htop ▸ hi) k ((hmentions i k).1 hk)
  · have hi : i ∈ s.erased → i ∈ s.topLevel := h.suspended i
    rw [activeAt_restore, hmentions, h.active, h.erased, isActive_iff, isActive_iff, htop, herased, hrest]
    by_cases hk : k = key
    · subst hk
      grind
    · grind
  · rw [erasedAt_restore, hmentions, h.erased, herased, hrest]
    by_cases hk : k = key
    · subst hk
      grind
    · grind

end Store

end PointerKinds
