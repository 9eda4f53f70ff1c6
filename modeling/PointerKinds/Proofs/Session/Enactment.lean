/-
What relating variables makes top-level.

Demands are imposed by creating their constraints and adding them, and a constraint is added
unless it is erased.  So whatever the store was, the constraints that are top-level afterwards are
those that were before and those that the demands say, the erased ones aside.  A flow creates the
two equalities it is between as well, and adds neither.

In a store in which the constraints of a demand are in force, what solving finds meets the demand.
Nothing has to be known of how the store came about.
-/
import PointerKinds.Proofs.Session.Relations
import PointerKinds.Proofs.Store.Operations
import PointerKinds.Proofs.Store.Reasons

namespace PointerKinds

namespace Store

variable {s t u : Store} {f : Formula} {fs gs : List Formula} {id : ConstraintId} {c : Constraint} {E : AtomKey → Kind}
  {l : List Demand}

/-! ### Creating and adding -/

/-- Creating a constraint leaves what formulas stand for. -/
theorem find?_intern_of_some (hf : s.find? f = some id) : (s.intern c).2.find? f = some id := by
  obtain ⟨hid, hbefore⟩ := find?_eq_some_iff.1 hf
  have hlt := formula?_lt hid
  refine find?_eq_some_iff.2 ⟨(formula?_intern s c hlt).trans hid, fun i hi => ?_⟩
  rw [formula?_intern s c (Nat.lt_trans hi hlt)]
  exact hbefore i hi

/-- What is created stands for what it says. -/
theorem find?_intern_self (s : Store) (c : Constraint) : (s.intern c).2.find? c.formula = some (s.intern c).1 := by
  cases hfind : s.find? c.formula with
  | some id =>
      have hid : (s.intern c).1 = id := by rw [intern, hfind]
      rw [hid]
      exact find?_intern_of_some hfind
  | none =>
      have hid : (s.intern c).1 = s.arena.length := by rw [intern, hfind]
      refine find?_eq_some_iff.2 ⟨formula?_intern_self s c, fun i hi => ?_⟩
      rw [hid] at hi
      rw [formula?_intern s c hi]
      exact formula?_ne_of_find? hfind i

theorem find?_congr (harena : t.arena = s.arena) (f : Formula) : t.find? f = s.find? f := by rw [find?, find?, harena]

/-- A constraint is added unless it is erased. -/
theorem mem_topLevel_add (hf : s.formula? id = some f) {i : ConstraintId} :
    i ∈ (s.add id).topLevel ↔ i ∈ s.topLevel ∨ i ∉ s.erased ∧ i = id := by
  by_cases hadd : s.isAddable id = true
  · rw [(add_spec hadd).1, or_comm]
    refine or_congr_right (iff_and_self.2 ?_)
    rintro rfl
    exact (isAddable_iff.1 hadd).2.1
  · rw [add_of_not_isAddable hadd]
    refine (or_iff_left_of_imp ?_).symm
    rintro ⟨herased, rfl⟩
    by_contra htop
    exact hadd (isAddable_iff.2 ⟨formula?_lt hf, herased, htop⟩)

theorem erased_add (s : Store) (id : ConstraintId) : (s.add id).erased = s.erased := by
  by_cases hadd : s.isAddable id = true
  · exact (add_spec hadd).2.1
  · rw [add_of_not_isAddable hadd]

/-! ### Enacting formulas -/

/-- One store becomes another by making the constraints with certain formulas top-level, the
erased ones aside, and no others. -/
structure Enacts (s t : Store) (fs : List Formula) : Prop where
  /-- Nothing is erased or restored. -/
  erased : t.erased = s.erased
  /-- Formulas stand for the constraints they stood for, -/
  kept : ∀ f id, s.find? f = some id → t.find? f = some id
  /-- and those that are enacted for one each. -/
  known : ∀ f ∈ fs, ∃ id, t.find? f = some id
  topLevel : ∀ id, id ∈ t.topLevel ↔ id ∈ s.topLevel ∨ id ∉ s.erased ∧ ∃ f ∈ fs, t.find? f = some id

theorem Enacts.refl (s : Store) : s.Enacts s [] where
  erased := rfl
  kept _ _ h := h
  known _ hf := absurd hf List.not_mem_nil
  topLevel _ := (or_iff_left fun ⟨_, _, hf, _⟩ => List.not_mem_nil hf).symm

theorem Enacts.trans (h : s.Enacts t fs) (h' : t.Enacts u gs) : s.Enacts u (fs ++ gs) where
  erased := h'.erased.trans h.erased
  kept f id hf := h'.kept f id (h.kept f id hf)
  known := List.forall_mem_append.2 ⟨fun f hf => (h.known f hf).imp fun id => h'.kept f id, h'.known⟩
  topLevel id := by
    have hsame : (∃ f ∈ fs, t.find? f = some id) ↔ ∃ f ∈ fs, u.find? f = some id := by
      refine exists_congr fun f => and_congr_right fun hf => ⟨h'.kept f id, fun hid => ?_⟩
      obtain ⟨i, hi⟩ := h.known f hf
      rwa [Option.some.inj (hid.symm.trans (h'.kept f i hi))]
    have hboth : (∃ f ∈ fs ++ gs, u.find? f = some id) ↔
        (∃ f ∈ fs, u.find? f = some id) ∨ ∃ f ∈ gs, u.find? f = some id := by
      simp only [List.mem_append, or_and_right, exists_or]
    rw [h'.topLevel, h.topLevel, h.erased, hsame, hboth, and_or_left, or_assoc]

theorem enacts_intern (s : Store) (c : Constraint) : s.Enacts (s.intern c).2 [] := by
  obtain ⟨-, htop, herased⟩ := intern_frame s c
  refine ⟨herased, fun f id => find?_intern_of_some, fun _ hf => absurd hf List.not_mem_nil, fun id => ?_⟩
  rw [htop]
  exact (or_iff_left fun ⟨_, _, hf, _⟩ => List.not_mem_nil hf).symm

/-- Creating and adding a constraint makes it top-level. -/
theorem enacts_post (s : Store) (c : Constraint) : s.Enacts (s.post c).2 [c.formula] := by
  obtain ⟨-, htop, herased⟩ := intern_frame s c
  have hfind : ∀ f, (s.post c).2.find? f = (s.intern c).2.find? f := fun f => find?_congr (arena_add _ _) f
  refine ⟨(erased_add _ _).trans herased, fun f id hf => (hfind f).trans (find?_intern_of_some hf), ?_, fun id => ?_⟩
  · exact List.forall_mem_singleton.2 ⟨_, (hfind _).trans (find?_intern_self s c)⟩
  · refine (mem_topLevel_add (formula?_intern_self s c)).trans ?_
    simp only [htop, herased, hfind, List.mem_singleton, exists_eq_left, find?_intern_self, Option.some.injEq, eq_comm]

theorem enacts_addFlow (s : Store) (a b : AtomKey) (k : Kind) : s.Enacts (s.addFlow a b k) [.flow a b k] :=
  ((enacts_intern s _).trans (enacts_intern _ _)).trans (enacts_post _ { formula := .flow a b k })

/-- A demand makes what it says top-level. -/
theorem enacts_impose (s : Store) (d : Demand) : s.Enacts (s.impose d) d.formulas := by
  cases d with
  | pin key k why => exact enacts_post s ⟨.pin key k, why⟩
  | join a b => exact enacts_post s ⟨.equal (.atom a) (.atom b), {}⟩
  | flow a b =>
      rw [impose, foldl_addFlow]
      exact ((enacts_addFlow s a b .arr).trans (enacts_addFlow _ a b .ntArr)).trans (enacts_addFlow _ a b .wild)

/-- **Demands make what they say top-level**, the erased ones aside, and nothing else. -/
theorem enacts_imposeAll (s : Store) (l : List Demand) : s.Enacts (s.imposeAll l) (l.flatMap Demand.formulas) := by
  induction l generalizing s with
  | nil => exact .refl s
  | cons d rest ih => exact (enacts_impose s d).trans (ih _)

/-- What satisfies a store meets the demands that are in force. -/
theorem Satisfied.allMet_of_inForce (h : s.Satisfied E) (hl : ∀ f ∈ l.flatMap Demand.formulas, s.InForce f) :
    Demand.AllMet E l :=
  fun d hd => h.met_of_inForce fun f hf => hl f (List.mem_flatMap.2 ⟨d, hd, hf⟩)

end Store

end PointerKinds
