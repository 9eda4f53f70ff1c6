/-
Stores that the operations on them build.

`Built` lists the operations, so an induction over it speaks of every store there can
be.  Taking a constraint out for good is allowed while it is in force only: a constraint
that is erased when it is taken out stays among the erased ones of its atoms, and would
come back with the next restoration of one of them, which no longer counts it.

The starting kinds are not among the operations.  Nothing in the index depends on them,
and theorems about solving let them be arbitrary.
-/
import PointerKinds.Proofs.Store.Index

namespace PointerKinds

namespace Formula

/-- An equality of an atom with a kind names the atom first. -/
def IsNormal : Formula → Prop
  | eq (.kind _) (.atom _) => False
  | _ => True

/-- What stands inside all conclusions. -/
def core : Formula → Formula
  | implies _ conclusion => conclusion.core
  | f => f

/-- What a formula is put together from. -/
def parts : Formula → List Formula
  | eq .. => []
  | not body => [body]
  | implies premise conclusion => [premise, conclusion]

theorem parts_equal (a b : Operand) : (equal a b).parts = [] := by
  unfold equal
  split <;> rfl

theorem isNormal_equal (a b : Operand) : (equal a b).IsNormal := by
  unfold equal
  cases a <;> cases b <;> split <;> trivial

end Formula

namespace Store

/-- What the operations on stores build from the empty one. -/
inductive Built : Store → Prop
  | empty : Built {}
  | ensureAtom {s : Store} (h : Built s) (key : AtomKey) : Built (s.ensureAtom key)
  | forbid {s : Store} (h : Built s) (key : AtomKey) (k : Kind) : Built (s.forbid key k)
  | setSoft {s : Store} (h : Built s) (key : AtomKey) (soft : SoftPreferences) :
      Built (s.setSoft key soft)
  | createEq {s : Store} (h : Built s) (a b : Operand) (why : Explanation) :
      Built (s.createEq a b why).2
  | createNot {s t : Store} {body id : ConstraintId} (h : Built s)
      (hcreate : s.createNot? body = some (id, t)) : Built t
  | createImplies {s t : Store} {premise conclusion id : ConstraintId} (h : Built s)
      (hcreate : s.createImplies? premise conclusion = some (id, t)) : Built t
  | add {s : Store} (h : Built s) (id : ConstraintId) : Built (s.add id)
  | remove {s : Store} {id : ConstraintId} (h : Built s) (hid : id ∉ s.erased) : Built (s.remove id)
  | erase {s : Store} (h : Built s) (id : ConstraintId) : Built (s.erase id)
  | restore {s : Store} (h : Built s) (key : AtomKey) : Built (s.restore key)
  | reset {s : Store} (h : Built s) : Built s.reset
  | solve {s : Store} (h : Built s) : Built s.solve.2
  | makeNonWild {s : Store} (h : Built s) (key : AtomKey) (region : List AtomKey) :
      Built (s.makeNonWild key region).2
  | eraseReason {s : Store} (h : Built s) (reason : String) : Built (s.eraseReason reason).2.2
  | startTrace {s : Store} (h : Built s) : Built s.startTrace
  | clearTrace {s : Store} (h : Built s) : Built s.clearTrace

variable {s : Store}

theorem indexed_empty : Indexed {} := by
  have hnone : ∀ id, id ∉ (∅ : SortedSet ConstraintId) := SortedSet.not_mem_empty
  refine ⟨fun id hid => absurd hid (hnone id), fun id hid => absurd hid (hnone id),
    fun id hid => absurd hid (hnone id), fun key id => ⟨?_, ?_⟩, fun key id => ⟨?_, ?_⟩⟩
  · rintro ⟨a, ha, -⟩
    exact nomatch (show none = some a from ha)
  · rintro ⟨hact, -⟩
    exact absurd (isActive_iff.1 hact).1 (hnone id)
  · rintro ⟨a, ha, -⟩
    exact nomatch (show none = some a from ha)
  · rintro ⟨he, -⟩
    exact absurd he (hnone id)

theorem Indexed.makeNonWild (h : s.Indexed) (key : AtomKey) (region : List AtomKey) :
    (s.makeNonWild key region).2.Indexed := by
  unfold Store.makeNonWild
  split
  · exact ((h.eraseAll _).lower _).commit _
  · exact h

/-- Every store that the operations build is indexed. -/
theorem Built.indexed (h : s.Built) : s.Indexed := by
  induction h with
  | empty => exact indexed_empty
  | ensureAtom _ key ih => exact ih.ensureAtom key
  | forbid _ key k ih => exact ih.forbid key k
  | setSoft _ key soft ih => exact ih.setSoft key soft
  | createEq _ a b why ih => exact ih.intern _
  | createNot _ hcreate ih =>
      obtain ⟨f, -, he⟩ := Option.map_eq_some_iff.1 hcreate
      rw [← (Prod.mk.inj he).2]
      exact ih.intern _
  | createImplies _ hcreate ih =>
      obtain ⟨p, -, he⟩ := Option.bind_eq_some_iff.1 hcreate
      obtain ⟨c, -, he⟩ := Option.map_eq_some_iff.1 he
      rw [← (Prod.mk.inj he).2]
      exact ih.intern _
  | add _ id ih => exact ih.add id
  | remove _ hid ih => exact ih.remove hid
  | erase _ id ih => exact ih.erase id
  | restore _ key ih => exact ih.restore key
  | reset _ ih => exact ih.reset
  | solve _ ih => exact ih.solve
  | makeNonWild _ key region ih => exact ih.makeNonWild key region
  | eraseReason _ reason ih => exact (ih.eraseAll _).reset.solve
  | startTrace _ ih => exact ih.of_eq rfl rfl rfl rfl
  | clearTrace _ ih => exact ih.of_eq rfl rfl rfl rfl

/-! ### What constraints there are -/

theorem arena_add (s : Store) (id : ConstraintId) : (s.add id).arena = s.arena := by
  unfold Store.add
  split
  · split
    · exact (attachAll_frame ..).1.trans (imposeFilter_frame ..).1
    · rfl
  · rfl

theorem arena_remove (s : Store) (id : ConstraintId) : (s.remove id).arena = s.arena := by
  unfold Store.remove
  split
  · exact (modifyAtomsOf_frame ..).1
  · rfl

theorem arena_makeNonWild (s : Store) (key : AtomKey) (region : List AtomKey) :
    (s.makeNonWild key region).2.arena = s.arena := by
  unfold Store.makeNonWild
  split
  · exact (eraseAll_frame s _).1
  · rfl

/-- Creating a constraint adds its formula, and no other. -/
theorem formula?_intern_cases {c : Constraint} {id : ConstraintId} {f : Formula}
    (h : (s.intern c).2.formula? id = some f) : s.formula? id = some f ∨ f = c.formula := by
  by_cases hid : id < s.arena.length
  · exact .inl (formula?_intern s c hid ▸ h)
  · unfold Store.intern at h
    split at h
    · have hlt := formula?_lt h
      rw [List.length_modify] at hlt
      exact absurd hlt hid
    · have hlt := formula?_lt h
      rw [List.length_append, List.length_singleton] at hlt
      obtain rfl : id = s.arena.length := Nat.le_antisymm (Nat.le_of_lt_succ hlt) (Nat.not_lt.1 hid)
      refine .inr ?_
      simpa [formula?, constraint?] using h.symm

theorem formula?_intern_self (s : Store) (c : Constraint) :
    (s.intern c).2.formula? (s.intern c).1 = some c.formula := by
  cases hfind : s.find? c.formula with
  | some id =>
      have hid : (s.intern c).1 = id := by rw [Store.intern, hfind]
      have hformula := (find?_eq_some_iff.1 hfind).1
      rw [hid, formula?_intern s c (formula?_lt hformula), hformula]
  | none => simp [Store.intern, hfind, formula?, constraint?]

/-- There is a constraint with a formula. -/
def Knows (s : Store) (f : Formula) : Prop := ∃ id, s.formula? id = some f

theorem knows_intern {c : Constraint} {f : Formula} : (s.intern c).2.Knows f ↔ s.Knows f ∨ f = c.formula := by
  constructor
  · rintro ⟨id, hf⟩
    exact (formula?_intern_cases hf).imp_left fun hf => ⟨id, hf⟩
  · rintro (⟨id, hf⟩ | rfl)
    · exact ⟨id, (formula?_intern s c (formula?_lt hf)).trans hf⟩
    · exact ⟨_, formula?_intern_self s c⟩

/-- What interning equalities, negations and implications keeps, holds of the constraints of
every store: no other operation touches them. -/
theorem Built.arena_induction {P : List Constraint → Prop} (h : s.Built) (hempty : P [])
    (hequal : ∀ (t : Store) (a b : Operand) (why : Explanation), P t.arena →
      P (t.intern { formula := .equal a b, why }).2.arena)
    (hnot : ∀ (t : Store) (body : ConstraintId) (f : Formula), t.formula? body = some f → P t.arena →
      P (t.intern { formula := .not f }).2.arena)
    (himplies : ∀ (t : Store) (premise conclusion : ConstraintId) (p c : Formula),
      t.formula? premise = some p → t.formula? conclusion = some c → P t.arena →
      P (t.intern { formula := .implies p c }).2.arena) : P s.arena := by
  induction h with
  | empty => exact hempty
  | ensureAtom _ _ ih | forbid _ _ _ ih | setSoft _ _ _ ih | reset _ ih | solve _ ih
  | startTrace _ ih | clearTrace _ ih => exact ih
  | createEq _ a b why ih => exact hequal _ a b why ih
  | createNot _ hcreate ih =>
      obtain ⟨f, hf, he⟩ := Option.map_eq_some_iff.1 hcreate
      rw [← (Prod.mk.inj he).2]
      exact hnot _ _ f hf ih
  | createImplies _ hcreate ih =>
      obtain ⟨p, hp, he⟩ := Option.bind_eq_some_iff.1 hcreate
      obtain ⟨c, hc, he⟩ := Option.map_eq_some_iff.1 he
      rw [← (Prod.mk.inj he).2]
      exact himplies _ _ _ p c hp hc ih
  | add _ id ih => exact (arena_add ..).symm ▸ ih
  | remove _ _ ih => exact (arena_remove ..).symm ▸ ih
  | erase _ id ih => exact (erase_frame ..).1.symm ▸ ih
  | restore _ key ih => exact (reinstateAll_spec ..).1.symm ▸ ih
  | makeNonWild _ key region ih => exact (arena_makeNonWild ..).symm ▸ ih
  | eraseReason _ reason ih => exact (eraseAll_frame ..).1.symm ▸ ih

/-- What the equalities, negations and implications created so far have in common, every
constraint has. -/
theorem Built.formula?_induction {P : Formula → Prop} (h : s.Built)
    (hequal : ∀ a b, P (.equal a b)) (hnot : ∀ f, P f → P (.not f))
    (himplies : ∀ p c, P p → P c → P (.implies p c)) :
    ∀ id f, s.formula? id = some f → P f := by
  have hintern : ∀ (t : Store) (c : Constraint), (∀ id f, t.formula? id = some f → P f) →
      P c.formula → ∀ id f, (t.intern c).2.formula? id = some f → P f := by
    intro t c ht hc id f hf
    rcases formula?_intern_cases hf with hf | rfl
    · exact ht id f hf
    · exact hc
  refine h.arena_induction (P := fun arena => ∀ id f, arena[id]?.map Constraint.formula = some f → P f)
    ?_ (fun t a b why ht => hintern t _ ht (hequal a b))
    (fun t body f hf ht => hintern t _ ht (hnot f (ht body f hf)))
    (fun t premise conclusion p c hp hc ht =>
      hintern t _ ht (himplies p c (ht premise p hp) (ht conclusion c hc)))
  intro id f hf
  cases hf

/-- Interning a formula that is there adds nothing, so every formula is there once. -/
theorem nodup_formulas_intern (s : Store) (c : Constraint) (h : (s.arena.map (·.formula)).Nodup) :
    ((s.intern c).2.arena.map (·.formula)).Nodup := by
  unfold Store.intern
  split
  · rename_i id hfind
    have hkeep : (s.arena.modify id (·.explainedBy c)).map (·.formula) = s.arena.map (·.formula) := by
      refine List.ext_getElem? fun i => ?_
      simp only [List.getElem?_map, List.getElem?_modify]
      cases s.arena[i]? with
      | none => rfl
      | some d => by_cases hi : id = i <;> simp [hi, Constraint.explainedBy]
    show ((s.arena.modify id (·.explainedBy c)).map (·.formula)).Nodup
    rwa [hkeep]
  · rename_i hfind
    have hnew : c.formula ∉ s.arena.map (·.formula) := by
      intro hmem
      obtain ⟨d, hd, he⟩ := List.mem_map.1 hmem
      exact absurd (List.findIdx?_eq_none_iff.1 hfind d hd) (by simp [he])
    rw [List.map_append, List.nodup_append]
    refine ⟨h, by simp, fun f hf g hg => ?_⟩
    rw [List.mem_singleton.1 hg]
    rintro rfl
    exact hnew hf

/-- No two constraints have the same formula. -/
theorem Built.formula?_inj (h : s.Built) {id id' : ConstraintId} {f : Formula} (hf : s.formula? id = some f)
    (hf' : s.formula? id' = some f) : id = id' := by
  have hnodup : (s.arena.map (·.formula)).Nodup :=
    h.arena_induction (P := fun arena => (arena.map (·.formula)).Nodup) List.nodup_nil
      (fun t _ _ _ ht => nodup_formulas_intern t _ ht) (fun t _ _ _ ht => nodup_formulas_intern t _ ht)
      (fun t _ _ _ _ _ _ ht => nodup_formulas_intern t _ ht)
  have hlt := formula?_lt hf
  unfold formula? constraint? at hf hf'
  refine (List.getElem?_inj (by simpa using hlt) hnodup).1 ?_
  rw [List.getElem?_map, List.getElem?_map, hf, hf']

/-- Every constraint names the atom of an equality before its kind. -/
theorem Built.isNormal (h : s.Built) {id : ConstraintId} {f : Formula} (hf : s.formula? id = some f) : f.IsNormal :=
  h.formula?_induction Formula.isNormal_equal (fun _ _ => trivial) (fun _ _ _ _ => trivial) id f hf

/-- So does what stands inside all conclusions of a constraint. -/
theorem Built.isNormal_core (h : s.Built) {id : ConstraintId} {f : Formula} (hf : s.formula? id = some f) :
    f.core.IsNormal := by
  refine h.formula?_induction (P := fun f => f.core.IsNormal) (fun a b => ?_) (fun _ _ => trivial)
    (fun _ _ _ hc => hc) id f hf
  have hcore : (Formula.equal a b).core = .equal a b := by
    unfold Formula.equal
    split <;> rfl
  rw [hcore]
  exact Formula.isNormal_equal a b

/-- What the formula of a constraint is put together from are formulas of constraints themselves. -/
theorem Built.knows_of_mem_parts (h : s.Built) {f g : Formula} (hf : s.Knows f) (hg : g ∈ f.parts) : s.Knows g := by
  have hintern : ∀ (t : Store) (d : Constraint), (∀ f, t.Knows f → ∀ g ∈ f.parts, t.Knows g) →
      (∀ g ∈ d.formula.parts, t.Knows g) → ∀ f, (t.intern d).2.Knows f → ∀ g ∈ f.parts, (t.intern d).2.Knows g := by
    intro t d ht hd f hf g hg
    refine knows_intern.2 (.inl ?_)
    rcases knows_intern.1 hf with hf | rfl
    · exact ht f hf g hg
    · exact hd g hg
  refine h.arena_induction
    (P := fun arena => ∀ f, ({ arena } : Store).Knows f → ∀ g ∈ f.parts, ({ arena } : Store).Knows g)
    ?_ (fun t a b why ht => hintern t _ ht ?_) (fun t body f hf ht => hintern t _ ht ?_)
    (fun t premise conclusion p c hp hc ht => hintern t _ ht ?_) f hf g hg
  · rintro f ⟨id, hf⟩
    cases hf
  · rw [Formula.parts_equal]
    exact fun g hg => absurd hg List.not_mem_nil
  · exact List.forall_mem_singleton.2 ⟨body, hf⟩
  · exact List.forall_mem_cons.2 ⟨⟨premise, hp⟩, List.forall_mem_singleton.2 ⟨conclusion, hc⟩⟩

/-- The premise and the conclusion of an implication are formulas of constraints themselves. -/
theorem Built.knows_parts (h : s.Built) {p c : Formula} (hf : s.Knows (.implies p c)) : s.Knows p ∧ s.Knows c :=
  ⟨h.knows_of_mem_parts hf List.mem_cons_self,
    h.knows_of_mem_parts hf (List.mem_cons_of_mem p (List.mem_singleton_self c))⟩

/-! ### Compound operations -/

theorem Built.addEq (h : s.Built) (a b : Operand) (why : Explanation) : (s.addEq a b why).2.Built :=
  (h.createEq a b why).add _

theorem Built.getD_createNot? (h : s.Built) (body : ConstraintId) :
    ((s.createNot? body).getD (0, s)).2.Built := by
  cases hcreate : s.createNot? body with
  | none => exact h
  | some r => exact h.createNot hcreate

theorem Built.getD_createImplies? (h : s.Built) (premise conclusion : ConstraintId) :
    ((s.createImplies? premise conclusion).getD (0, s)).2.Built := by
  cases hcreate : s.createImplies? premise conclusion with
  | none => exact h
  | some r => exact h.createImplies hcreate

theorem Built.addFlow (h : s.Built) (a b : AtomKey) (k : Kind) : (s.addFlow a b k).Built := by
  have hpremise := formula?_intern_self s { formula := .equal (.atom a) (.kind k) }
  have h₁ : (s.intern { formula := .equal (.atom a) (.kind k) }).2.Built := h.createEq _ _ _
  show Built (Store.post (Store.intern (s.intern { formula := .equal (.atom a) (.kind k) }).2
    { formula := .equal (.atom b) (.kind k) }).2 { formula := .implies _ _ }).2
  generalize s.intern { formula := .equal (.atom a) (.kind k) } = r₁ at *
  have hconclusion := formula?_intern_self r₁.2 { formula := .equal (.atom b) (.kind k) }
  have hkeep := formula?_intern r₁.2 { formula := .equal (.atom b) (.kind k) } (formula?_lt hpremise)
  have h₂ : (r₁.2.intern { formula := .equal (.atom b) (.kind k) }).2.Built := h₁.createEq _ _ _
  generalize r₁.2.intern { formula := .equal (.atom b) (.kind k) } = r₂ at *
  have hcreate : r₂.2.createImplies? r₁.1 r₂.1 =
      some (r₂.2.intern { formula := .implies (.equal (.atom a) (.kind k)) (.equal (.atom b) (.kind k)) }) := by
    unfold Store.createImplies?
    rw [hkeep, hpremise, hconclusion]
    rfl
  exact (h₂.createImplies hcreate).add _

end Store

end PointerKinds
