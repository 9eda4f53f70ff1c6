/-
Stores that recordings lead to.

Whatever a recording says ends up as one of a few operations on the store: registering an
atom, barring it from being unchecked, noting its preferences, pinning it to a kind,
joining it to another, and letting every kind flow from one atom to another.  `Grows`
lists them, so that what all recordings have in common is one induction: everything in
force has one of three shapes and stays in force, flows come in triples, and nothing was
solved yet.
-/
import PointerKinds.Proofs.Solver.Least
import PointerKinds.Proofs.Solver.Provenance
import PointerKinds.Variable.Relations

namespace PointerKinds

namespace Store

/-- The stores that recordings make of a store. -/
inductive Grows (s₀ : Store) : Store → Prop
  | refl : Grows s₀ s₀
  | newAtom {s : Store} (h : Grows s₀ s) : Grows s₀ s.newAtom.2
  | bar {s : Store} (h : Grows s₀ s) (key : AtomKey) : Grows s₀ (s.forbid key .wild)
  | prefer {s : Store} (h : Grows s₀ s) (key : AtomKey) (soft : SoftPreferences) :
      Grows s₀ (s.setSoft key soft)
  | pin {s : Store} (h : Grows s₀ s) (key : AtomKey) (k : Kind) (why : Explanation) :
      Grows s₀ (s.addEq (.atom key) (.kind k) why).2
  | join {s : Store} (h : Grows s₀ s) (a b : AtomKey) (why : Explanation) :
      Grows s₀ (s.addEq (.atom a) (.atom b) why).2
  | flow {s : Store} (h : Grows s₀ s) (a b : AtomKey) :
      Grows s₀ (flowingKinds.foldl (·.addFlow a b ·) s)

/-- What recordings make of the empty store. -/
abbrev Recorded (s : Store) : Prop := Grows {} s

variable {s₀ s t : Store} {f g : Formula} {id : ConstraintId} {key x : AtomKey} {k : Kind}

theorem Grows.trans (h : s₀.Grows s) (h' : s.Grows t) : s₀.Grows t := by
  induction h' with
  | refl => exact h
  | newAtom _ ih => exact ih.newAtom
  | bar _ key ih => exact ih.bar key
  | prefer _ key soft ih => exact ih.prefer key soft
  | pin _ key k why ih => exact ih.pin key k why
  | join _ a b why ih => exact ih.join a b why
  | flow _ a b ih => exact ih.flow a b

theorem foldl_addFlow (s : Store) (a b : AtomKey) : flowingKinds.foldl (·.addFlow a b ·) s =
    ((s.addFlow a b .arr).addFlow a b .ntArr).addFlow a b .wild := by
  simp only [flowingKinds, List.foldl_cons, List.foldl_nil]

theorem Recorded.built (h : s.Recorded) : s.Built := by
  induction h with
  | refl => exact .empty
  | newAtom _ ih => exact ih.ensureAtom _
  | bar _ key ih => exact ih.forbid key .wild
  | prefer _ key soft ih => exact ih.setSoft key soft
  | pin _ key k why ih => exact ih.addEq _ _ why
  | join _ a b why ih => exact ih.addEq _ _ why
  | flow _ a b ih =>
      rw [foldl_addFlow]
      exact ((ih.addFlow a b .arr).addFlow a b .ntArr).addFlow a b .wild

/-! ### Formulas as they are recorded -/

theorem equal_join (a b : AtomKey) :
    Formula.equal (.atom a) (.atom b) = .join a b ∨ Formula.equal (.atom a) (.atom b) = .join b a := by
  unfold Formula.equal
  split
  · exact .inr rfl
  · exact .inl rfl

/-- A store in which nothing was solved or erased, and which bars nothing but unchecked
pointers. -/
structure Blank (s : Store) : Prop where
  unerased : ∀ id, id ∉ s.erased
  uncaused : ∀ x, s.forcedBy.get? x = none
  checked : ∀ x, s.value x = .ptr
  permitted : ∀ x a, s.atoms.get? x = some a → ∀ k, k ≠ .wild → a.permits k = true

/-- A store in which nothing happened but recording. -/
structure Fresh (s : Store) : Prop extends s.Blank where
  indexed : s.Indexed
  demand : ∀ f, s.InForce f → f.IsDemand
  triple : ∀ a b k, k ≠ .ptr → s.InForce (.flow a b k) →
    s.InForce (.flow a b .arr) ∧ s.InForce (.flow a b .ntArr) ∧ s.InForce (.flow a b .wild)

/-! ### What stays blank -/

theorem blank_empty : Blank {} where
  unerased := SortedSet.not_mem_empty
  uncaused _ := rfl
  checked _ := rfl
  permitted _ a ha := nomatch (show none = some a from ha)

theorem Blank.intern (h : s.Blank) (c : Constraint) : (s.intern c).2.Blank := by
  obtain ⟨hatoms, -, herased⟩ := intern_frame s c
  have hfound : (s.intern c).2.env = s.env ∧ (s.intern c).2.forcedBy = s.forcedBy := by
    unfold Store.intern
    split <;> exact ⟨rfl, rfl⟩
  refine ⟨by rw [herased]; exact h.unerased, by rw [hfound.2]; exact h.uncaused, fun x => ?_, ?_⟩
  · have hx := h.checked x
    unfold value at hx ⊢
    rw [hfound.1]
    exact hx
  · rw [hatoms]
    exact h.permitted

theorem Blank.ensureAtom (h : s.Blank) (key : AtomKey) : (s.ensureAtom key).Blank where
  unerased := h.unerased
  uncaused := h.uncaused
  checked x := by
    have hx := h.checked x
    unfold value SortedMap.getD at hx ⊢
    simp only [Store.ensureAtom, SortedMap.get?_insertNew]
    split
    · rfl
    · exact hx
  permitted x a ha k hk := by
    rw [atoms_ensureAtom] at ha
    split at ha
    · rw [← Option.some.inj ha]
      rfl
    · exact h.permitted x a ha k hk

/-- A change to one atom that bars it at most from being unchecked. -/
theorem Blank.modifyAtom (h : s.Blank) (key : AtomKey) {g : Atom → Atom}
    (hpermits : ∀ a k, k ≠ .wild → (g a).permits k = a.permits k) : (s.modifyAtom key g).Blank where
  unerased := h.unerased
  uncaused := h.uncaused
  checked := h.checked
  permitted x a ha k hk := by
    unfold Store.modifyAtom at ha
    simp only [SortedMap.get?_modify] at ha
    split at ha
    · obtain ⟨b, hb, rfl⟩ := Option.map_eq_some_iff.1 ha
      rw [hpermits b k hk]
      exact h.permitted _ b hb k hk
    · exact h.permitted x a ha k hk

theorem Blank.attachAll (h : s.Blank) (id : ConstraintId) (keys : List AtomKey) :
    (keys.foldl (attach id) s).Blank := by
  induction keys generalizing s with
  | nil => exact h
  | cons key rest ih => exact ih ((h.ensureAtom key).modifyAtom key fun _ _ _ => rfl)

/-! ### Imposing a formula -/

theorem Blank.inForce_iff (h : s.Blank) :
    s.InForce f ↔ ∃ id ∈ s.topLevel, s.formula? id = some f := by
  unfold InForce
  simp only [mem_activeFormulas, isActive_iff, h.unerased, not_false_iff, and_true]

theorem imposeFilter_of_isDemand (s : Store) (hf : f.IsDemand) : s.imposeFilter f = s := by
  cases hf <;> rfl

/-- Adding a constraint puts what it says in force, and nothing else. -/
theorem Blank.add (h : s.Blank) (hf : s.formula? id = some f) (hdemand : f.IsDemand) :
    (s.add id).Blank ∧ ∀ g, (s.add id).InForce g ↔ s.InForce g ∨ g = f := by
  unfold Store.add
  split
  · simp only [hf, imposeFilter_of_isDemand s hdemand]
    obtain ⟨harena, htop, herased⟩ := attachAll_frame s id f.atoms.toList
    have hblank := h.attachAll id f.atoms.toList
    generalize f.atoms.toList.foldl (attach id) s = t at *
    have hblank' : Blank { t with topLevel := t.topLevel.insert id } :=
      ⟨hblank.unerased, hblank.uncaused, hblank.checked, hblank.permitted⟩
    refine ⟨hblank', fun g => ?_⟩
    have hformula : ∀ i, formula? { t with topLevel := t.topLevel.insert id } i = s.formula? i :=
      fun i => by simp only [formula?, constraint?, harena]
    rw [hblank'.inForce_iff, h.inForce_iff]
    constructor
    · rintro ⟨i, hi, hg⟩
      rw [hformula] at hg
      rcases SortedSet.mem_insert.1 hi with rfl | hi
      · exact .inr (Option.some.inj (hg.symm.trans hf))
      · exact .inl ⟨i, htop ▸ hi, hg⟩
    · rintro (⟨i, hi, hg⟩ | rfl)
      · exact ⟨i, SortedSet.mem_insert.2 (.inr (htop ▸ hi)), (hformula i).trans hg⟩
      · exact ⟨id, SortedSet.mem_insert.2 (.inl rfl), (hformula id).trans hf⟩
  · rename_i hadd
    refine ⟨h, fun g => (or_iff_left_of_imp ?_).symm⟩
    rintro rfl
    refine h.inForce_iff.2 ⟨id, ?_, hf⟩
    have hlt : id < s.arena.length := formula?_lt hf
    have hne : s.erased.contains id = false := SortedSet.contains_eq_false_iff.2 (h.unerased id)
    simpa [isAddable, hlt, hne, SortedSet.contains_iff] using hadd

theorem Blank.inForce_intern (h : s.Blank) (hs : s.Indexed) (c : Constraint) :
    (s.intern c).2.InForce g ↔ s.InForce g := by
  rw [(h.intern c).inForce_iff, h.inForce_iff, (intern_frame s c).2.1]
  refine exists_congr fun id => and_congr_right fun hid => ?_
  rw [formula?_intern s c (hs.known id hid)]

/-- An operation that puts one formula in force, and does nothing else of note. -/
structure Imposes (f : Formula) (s t : Store) : Prop where
  blank : t.Blank
  indexed : t.Indexed
  inForce : ∀ g, t.InForce g ↔ s.InForce g ∨ g = f

theorem imposes_post (h : s.Blank) (hs : s.Indexed) (c : Constraint) (hdemand : c.formula.IsDemand) :
    Imposes c.formula s (s.post c).2 := by
  obtain ⟨hblank, hforce⟩ := (h.intern c).add (formula?_intern_self s c) hdemand
  refine ⟨hblank, (hs.intern c).add _, fun g => ?_⟩
  rw [← h.inForce_intern hs c]
  exact hforce g

theorem imposes_addFlow (h : s.Blank) (hs : s.Indexed) (a b : AtomKey) (hk : k ≠ .ptr) :
    Imposes (.flow a b k) s (s.addFlow a b k) := by
  have h₁ := h.intern { formula := .equal (.atom a) (.kind k) }
  have hs₁ := hs.intern { formula := .equal (.atom a) (.kind k) }
  have h₂ := h₁.intern { formula := .equal (.atom b) (.kind k) }
  have hs₂ := hs₁.intern { formula := .equal (.atom b) (.kind k) }
  obtain ⟨hblank, hindexed, hforce⟩ := imposes_post h₂ hs₂ { formula := .flow a b k } (.flow a b hk)
  refine ⟨hblank, hindexed, fun g => ?_⟩
  rw [← h.inForce_intern hs { formula := .equal (.atom a) (.kind k) },
    ← h₁.inForce_intern hs₁ { formula := .equal (.atom b) (.kind k) }]
  exact hforce g

/-- A pin or a join leaves a store fresh. -/
theorem Fresh.impose {t : Store} (h : s.Fresh) (ht : Imposes f s t) (hdemand : f.IsDemand)
    (hflow : ∀ a b k, f ≠ .flow a b k) : t.Fresh := by
  refine ⟨ht.blank, ht.indexed, fun g hg => ?_, fun a b k hk hg => ?_⟩
  · rcases (ht.inForce g).1 hg with hg | rfl
    · exact h.demand g hg
    · exact hdemand
  · rcases (ht.inForce _).1 hg with hg | he
    · obtain ⟨h₁, h₂, h₃⟩ := h.triple a b k hk hg
      exact ⟨(ht.inForce _).2 (.inl h₁), (ht.inForce _).2 (.inl h₂), (ht.inForce _).2 (.inl h₃)⟩
    · exact absurd he.symm (hflow a b k)

/-- A flow puts three formulas in force. -/
theorem Fresh.imposes_flow (h : s.Fresh) (a b : AtomKey) :
    (flowingKinds.foldl (·.addFlow a b ·) s).Blank ∧ (flowingKinds.foldl (·.addFlow a b ·) s).Indexed ∧
    ∀ g, (flowingKinds.foldl (·.addFlow a b ·) s).InForce g ↔
      s.InForce g ∨ g = .flow a b .arr ∨ g = .flow a b .ntArr ∨ g = .flow a b .wild := by
  rw [foldl_addFlow]
  have h₁ := imposes_addFlow h.toBlank h.indexed a b (k := .arr) (by decide)
  have h₂ := imposes_addFlow h₁.blank h₁.indexed a b (k := .ntArr) (by decide)
  have h₃ := imposes_addFlow h₂.blank h₂.indexed a b (k := .wild) (by decide)
  refine ⟨h₃.blank, h₃.indexed, fun g => ?_⟩
  rw [h₃.inForce, h₂.inForce, h₁.inForce, or_assoc, or_assoc]

theorem Fresh.flow (h : s.Fresh) (a b : AtomKey) : (flowingKinds.foldl (·.addFlow a b ·) s).Fresh := by
  obtain ⟨hblank, hindexed, hforce⟩ := h.imposes_flow a b
  refine ⟨hblank, hindexed, fun g hg => ?_, fun a' b' k hk hg => ?_⟩
  · rcases (hforce g).1 hg with hg | rfl | rfl | rfl
    · exact h.demand g hg
    · exact .flow a b (by decide)
    · exact .flow a b (by decide)
    · exact .flow a b (by decide)
  · simp only [hforce]
    rcases (hforce _).1 hg with hg | he
    · exact (h.triple a' b' k hk hg).imp .inl (.imp .inl .inl)
    · obtain ⟨rfl, rfl⟩ : a' = a ∧ b' = b := by
        rcases he with he | he | he <;> simp_all
      simp

theorem fresh_empty : Fresh {} where
  toBlank := blank_empty
  indexed := indexed_empty
  demand _ hf := hf.elim fun _ hf => absurd hf List.not_mem_nil
  triple _ _ _ _ hf := hf.elim fun _ hf => absurd hf List.not_mem_nil

theorem isDemand_equal (a b : AtomKey) : (Formula.equal (.atom a) (.atom b)).IsDemand := by
  rcases equal_join a b with he | he <;> rw [he]
  · exact .join a b
  · exact .join b a

theorem Fresh.imposes_pin (h : s.Fresh) (key : AtomKey) (k : Kind) (why : Explanation) :
    Imposes (.pin key k) s (s.addEq (.atom key) (.kind k) why).2 :=
  imposes_post h.toBlank h.indexed ⟨.pin key k, why⟩ (.pin key k)

theorem Fresh.imposes_join (h : s.Fresh) (a b : AtomKey) (why : Explanation) :
    Imposes (.equal (.atom a) (.atom b)) s (s.addEq (.atom a) (.atom b) why).2 :=
  imposes_post h.toBlank h.indexed ⟨_, why⟩ (isDemand_equal a b)

/-- **Recording leaves a store fresh.**  Everything in force is a pin, a join or a flow, and
every flow is one of three. -/
theorem Grows.fresh (h : s₀.Grows s) (h₀ : s₀.Fresh) : s.Fresh := by
  induction h with
  | refl => exact h₀
  | newAtom _ ih => exact ⟨ih.toBlank.ensureAtom _, ih.indexed.ensureAtom _, ih.demand, ih.triple⟩
  | bar _ key ih =>
      refine ⟨ih.toBlank.modifyAtom key fun a k hk => ?_, ih.indexed.forbid key .wild, ih.demand, ih.triple⟩
      have hmem : ∀ k', k' ∈ a.forbidden.insert Kind.wild ↔ k' = .wild ∨ k' ∈ a.forbidden :=
        fun _ => SortedSet.mem_insert
      unfold Atom.permits Atom.forbid
      rw [Bool.not_inj_iff, Bool.eq_iff_iff, SortedSet.contains_iff, SortedSet.contains_iff, hmem]
      exact or_iff_right hk
  | prefer _ key soft ih =>
      exact ⟨ih.toBlank.modifyAtom key fun _ _ _ => rfl, ih.indexed.setSoft key soft, ih.demand, ih.triple⟩
  | pin _ key k why ih =>
      exact ih.impose (ih.imposes_pin key k why) (.pin key k) fun a b k' he => nomatch he
  | join _ a b why ih =>
      refine ih.impose (ih.imposes_join a b why) (isDemand_equal a b) fun a' b' k' he => ?_
      rcases equal_join a b with he' | he' <;> exact nomatch he'.symm.trans he
  | flow _ a b ih => exact ih.flow a b

theorem Recorded.fresh (h : s.Recorded) : s.Fresh := Grows.fresh h fresh_empty

/-- **Nothing recorded is withdrawn.** -/
theorem Grows.inForce (h : s₀.Grows s) (h₀ : s₀.Fresh) (hf : s₀.InForce f) : s.InForce f := by
  induction h with
  | refl => exact hf
  | newAtom | bar | prefer => assumption
  | pin hs key k why ih => exact (((hs.fresh h₀).imposes_pin key k why).inForce f).2 (.inl ih)
  | join hs a b why ih => exact (((hs.fresh h₀).imposes_join a b why).inForce f).2 (.inl ih)
  | flow hs a b ih => exact ((hs.fresh h₀).imposes_flow a b).2.2 f |>.2 (.inl ih)

end Store

end PointerKinds
