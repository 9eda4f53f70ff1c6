/-
The operations on a store, and the stores they lead to.

Here an operation is a value, what it tells its caller is another, and a store is reachable
if some list of operations leads to it from the empty one.  Nothing is asked of the
operations: in particular a constraint may be taken out while it is erased.  Then the atoms it
mentions still have it among their erased ones, and after one of them is restored they count
it among those in force although the store does not.

So what the atoms record is not what the store says, and less can be promised than for stores
in which constraints are taken out in force only.  What remains is that the atoms of one
constraint agree with each other: whatever one of them has on record, it mentions, and all it
mentions have it on the same record; and what the store does say, the atoms say as well.
-/
import PointerKinds.Proofs.Store.Built

namespace PointerKinds

namespace Store

/-! ### Operations -/

/-- A call on a store. -/
inductive Operation where
  | register (key : AtomKey)
  | forbid (key : AtomKey) (k : Kind)
  | prefer (key : AtomKey) (soft : SoftPreferences)
  | createEq (a b : Operand) (why : Explanation)
  | createNot (body : ConstraintId)
  | createImplies (premise conclusion : ConstraintId)
  | add (id : ConstraintId)
  | remove (id : ConstraintId)
  | erase (id : ConstraintId)
  | restore (key : AtomKey)
  | reset
  | solve
  | makeNonWild (key : AtomKey) (region : List AtomKey)
  | eraseReason (reason : String)
  | startTrace
  | takeTrace
deriving DecidableEq

/-- What a call tells its caller. -/
inductive Answer where
  | done
  /-- Whether the call had any effect. -/
  | changed (b : Bool)
  /-- The number of the constraint asked for. -/
  | made (id : ConstraintId)
  /-- There is no constraint to build it from. -/
  | unknown
  /-- The constraints put back in force. -/
  | restored (ids : List ConstraintId)
  /-- The atoms that are not unchecked any more. -/
  | released (keys : List AtomKey)
  | solved (outcome : Outcome)
  /-- The constraints erased for their reason, and the outcome after that. -/
  | dropped (ids : List ConstraintId) (outcome : Outcome)
  | moved (moves : List Move)
deriving DecidableEq

/-- What a call answers, and the store after it. -/
def perform (s : Store) : Operation → Answer × Store
  | .register key => (.done, s.ensureAtom key)
  | .forbid key k => (.done, s.forbid key k)
  | .prefer key soft => (.done, s.setSoft key soft)
  | .createEq a b why => let (id, t) := s.createEq a b why; (.made id, t)
  | .createNot body =>
    match s.createNot? body with
    | some (id, t) => (.made id, t)
    | none => (.unknown, s)
  | .createImplies premise conclusion =>
    match s.createImplies? premise conclusion with
    | some (id, t) => (.made id, t)
    | none => (.unknown, s)
  | .add id => (.changed (s.isAddable id), s.add id)
  | .remove id => (.changed (s.topLevel.contains id), s.remove id)
  | .erase id => (.changed (s.isActive id), s.erase id)
  | .restore key => (.restored (s.restorable key), s.restore key)
  | .reset => (.done, s.reset)
  | .solve => let (outcome, t) := s.solve; (.solved outcome, t)
  | .makeNonWild key region => let (keys, t) := s.makeNonWild key region; (.released keys, t)
  | .eraseReason reason => let (ids, outcome, t) := s.eraseReason reason; (.dropped ids outcome, t)
  | .startTrace => (.done, s.startTrace)
  | .takeTrace => (.moved s.recorded, s.clearTrace)

/-- The store after some calls. -/
def performAll (s : Store) (calls : List Operation) : Store := calls.foldl (fun s c => (s.perform c).2) s

/-- What calls lead to from the empty store. -/
inductive Reachable : Store → Prop
  | empty : Reachable {}
  | perform {s : Store} (h : Reachable s) (c : Operation) : Reachable (s.perform c).2

variable {s t : Store} {id : ConstraintId} {key key' : AtomKey} {f : Formula}

/-- Where there is no constraint to build one from, nothing happens. -/
theorem perform_createNot (s : Store) (body : ConstraintId) : (s.perform (.createNot body)).2 = s ∨
    ∃ c, (s.perform (.createNot body)).2 = (s.intern c).2 := by
  simp only [perform, createNot?]
  cases s.formula? body with
  | none => exact .inl rfl
  | some f => exact .inr ⟨_, rfl⟩

theorem perform_createImplies (s : Store) (premise conclusion : ConstraintId) :
    (s.perform (.createImplies premise conclusion)).2 = s ∨
      ∃ c, (s.perform (.createImplies premise conclusion)).2 = (s.intern c).2 := by
  simp only [perform, createImplies?]
  cases s.formula? premise with
  | none => exact .inl rfl
  | some p =>
      cases s.formula? conclusion with
      | none => exact .inl rfl
      | some c => exact .inr ⟨_, rfl⟩

theorem Reachable.performAll (h : s.Reachable) (calls : List Operation) : (s.performAll calls).Reachable := by
  induction calls generalizing s with
  | nil => exact h
  | cons c rest ih => exact ih (h.perform c)

theorem reachable_performAll (calls : List Operation) : (performAll {} calls).Reachable :=
  Reachable.empty.performAll calls

theorem performAll_concat (s : Store) (calls : List Operation) (c : Operation) :
    s.performAll (calls ++ [c]) = ((s.performAll calls).perform c).2 := by
  unfold Store.performAll
  rw [List.foldl_append, List.foldl_cons, List.foldl_nil]

theorem Reachable.exists_performAll (h : s.Reachable) : ∃ calls : List Operation, Store.performAll {} calls = s := by
  induction h with
  | empty => exact ⟨[], rfl⟩
  | perform _ c ih =>
      obtain ⟨calls, rfl⟩ := ih
      exact ⟨calls ++ [c], performAll_concat {} calls c⟩

/-- Building is calling. -/
theorem Built.reachable (h : s.Built) : s.Reachable := by
  induction h with
  | empty => exact .empty
  | ensureAtom _ key ih => exact ih.perform (.register key)
  | forbid _ key k ih => exact ih.perform (.forbid key k)
  | setSoft _ key soft ih => exact ih.perform (.prefer key soft)
  | createEq _ a b why ih => exact ih.perform (.createEq a b why)
  | @createNot s t body id _ hcreate ih =>
      have hperform : (s.perform (.createNot body)).2 = t := by simp only [Store.perform, hcreate]
      exact hperform ▸ ih.perform _
  | @createImplies s t premise conclusion id _ hcreate ih =>
      have hperform : (s.perform (.createImplies premise conclusion)).2 = t := by simp only [Store.perform, hcreate]
      exact hperform ▸ ih.perform _
  | add _ id ih => exact ih.perform (.add id)
  | @remove _ id _ _ ih => exact ih.perform (.remove id)
  | erase _ id ih => exact ih.perform (.erase id)
  | restore _ key ih => exact ih.perform (.restore key)
  | reset _ ih => exact ih.perform .reset
  | solve _ ih => exact ih.perform .solve
  | makeNonWild _ key region ih => exact ih.perform (.makeNonWild key region)
  | eraseReason _ reason ih => exact ih.perform (.eraseReason reason)
  | startTrace _ ih => exact ih.perform .startTrace
  | clearTrace _ ih => exact ih.perform .takeTrace

/-! ### What there is -/

theorem arena_intern_congr (harena : t.arena = s.arena) (c : Constraint) :
    (t.intern c).2.arena = (s.intern c).2.arena := by
  unfold intern find?
  rw [harena]
  split <;> rfl

theorem formula?_congr (harena : t.arena = s.arena) (id : ConstraintId) : t.formula? id = s.formula? id := by
  simp only [formula?, constraint?, harena]

theorem knows_congr (harena : t.arena = s.arena) : t.Knows f ↔ s.Knows f := by
  simp only [Knows, formula?_congr harena]

theorem mentions_congr (harena : t.arena = s.arena) : t.Mentions id key ↔ s.Mentions id key := by
  simp only [Mentions, formula?_congr harena]

/-- Taking constraints out makes no constraints, so every arena is that of a store built without
taking out an erased one. -/
theorem Reachable.exists_built (h : s.Reachable) : ∃ t : Store, t.Built ∧ t.arena = s.arena := by
  induction h with
  | empty => exact ⟨{}, .empty, rfl⟩
  | @perform s _ c ih =>
      obtain ⟨t, ht, harena⟩ := ih
      have hkeep : ∀ u : Store, u.arena = s.arena → ∃ t : Store, t.Built ∧ t.arena = u.arena :=
        fun u hu => ⟨t, ht, harena.trans hu.symm⟩
      cases c with
      | createEq a b why => exact ⟨_, ht.createEq a b why, arena_intern_congr harena _⟩
      | createNot body =>
          simp only [Store.perform]
          cases hcreate : s.createNot? body with
          | none => exact hkeep s rfl
          | some r =>
              obtain ⟨f, hf, he⟩ := Option.map_eq_some_iff.1 hcreate
              have hcreate' : t.createNot? body = some (t.intern { formula := .not f }) := by
                unfold createNot?
                rw [formula?_congr harena, hf]
                rfl
              exact ⟨_, ht.createNot hcreate', he ▸ arena_intern_congr harena _⟩
      | createImplies premise conclusion =>
          simp only [Store.perform]
          cases hcreate : s.createImplies? premise conclusion with
          | none => exact hkeep s rfl
          | some r =>
              obtain ⟨p, hp, he⟩ := Option.bind_eq_some_iff.1 hcreate
              obtain ⟨c, hc, he⟩ := Option.map_eq_some_iff.1 he
              have hcreate' : t.createImplies? premise conclusion = some (t.intern { formula := .implies p c }) := by
                unfold createImplies?
                rw [formula?_congr harena, formula?_congr harena, hp, hc]
                rfl
              exact ⟨_, ht.createImplies hcreate', he ▸ arena_intern_congr harena _⟩
      | add id => exact hkeep _ (arena_add s id)
      | remove id => exact hkeep _ (arena_remove s id)
      | erase id => exact hkeep _ (erase_frame s id).1
      | restore key => exact hkeep _ (restore_frame s key).1
      | makeNonWild key region => exact hkeep _ (arena_makeNonWild s key region)
      | eraseReason reason => exact hkeep _ (eraseAll_frame s _).1
      | _ => exact hkeep _ rfl

/-- So what is known of the constraints of the built stores holds of all. -/
theorem Reachable.isNormal (h : s.Reachable) (hf : s.formula? id = some f) : f.IsNormal := by
  obtain ⟨t, ht, harena⟩ := h.exists_built
  exact ht.isNormal ((formula?_congr harena id).trans hf)

theorem Reachable.isNormal_core (h : s.Reachable) (hf : s.formula? id = some f) : f.core.IsNormal := by
  obtain ⟨t, ht, harena⟩ := h.exists_built
  exact ht.isNormal_core ((formula?_congr harena id).trans hf)

theorem Reachable.knows_parts (h : s.Reachable) {p c : Formula} (hf : s.Knows (.implies p c)) :
    s.Knows p ∧ s.Knows c := by
  obtain ⟨t, ht, harena⟩ := h.exists_built
  rw [← knows_congr harena] at hf
  rw [← knows_congr harena, ← knows_congr harena]
  exact ht.knows_parts hf

/-! ### What is on record -/

/-- The atoms of a constraint agree on what they record of it, and record what the store says. -/
structure Filed (s : Store) : Prop where
  /-- Only constraints that exist are top-level. -/
  known : ∀ id ∈ s.topLevel, id < s.arena.length
  /-- Only top-level constraints are erased. -/
  suspended : ∀ id ∈ s.erased, id ∈ s.topLevel
  /-- What an atom counts among those in force mentions it, and all it mentions count it too. -/
  active : ∀ {key id}, s.ActiveAt key id → s.Mentions id key ∧ ∀ x, s.Mentions id x → s.ActiveAt x id
  /-- So it is with what an atom counts among the erased ones. -/
  erased : ∀ {key id}, s.ErasedAt key id → s.Mentions id key ∧ ∀ x, s.Mentions id x → s.ErasedAt x id
  /-- All atoms know what is in force, -/
  inForce : ∀ {id}, s.isActive id = true → ∀ x, s.Mentions id x → s.ActiveAt x id
  /-- and what is erased. -/
  shelved : ∀ {id}, id ∈ s.erased → ∀ x, s.Mentions id x → s.ErasedAt x id

theorem contains_of_mem_formulasAt {c : ConstraintId × Formula} (hc : c ∈ s.formulasAt key) :
    s.atoms.contains key = true := by
  obtain ⟨⟨a, ha, -⟩, -⟩ := mem_formulasAt.1 hc
  exact Option.isSome_iff_exists.2 ⟨a, ha⟩

/-- What an atom has on record says something about it, and is on record at all that it is about. -/
theorem Filed.mem_formulasAt_iff (h : s.Filed) {c : ConstraintId × Formula} (hc : c ∈ s.formulasAt key) :
    c ∈ s.formulasAt key' ↔ key' ∈ c.2.mentions := by
  obtain ⟨hact, hf⟩ := mem_formulasAt.1 hc
  have hmem : c ∈ s.formulasAt key' ↔ s.ActiveAt key' c.1 := mem_formulasAt.trans (and_iff_left hf)
  rw [hmem]
  constructor
  · intro hact'
    obtain ⟨g, hg, hkey⟩ := (h.active hact').1
    rwa [← Option.some.inj (hg.symm.trans hf)]
  · exact fun hkey => (h.active hact).2 key' ⟨c.2, hf, hkey⟩

/-- Only the constraints and the records count. -/
theorem Filed.congr (h : s.Filed) (harena : t.arena = s.arena) (htop : t.topLevel = s.topLevel)
    (herased : t.erased = s.erased) (hactive : ∀ key id, t.ActiveAt key id ↔ s.ActiveAt key id)
    (herasedAt : ∀ key id, t.ErasedAt key id ↔ s.ErasedAt key id) : t.Filed where
  known id hid := harena ▸ h.known id (htop ▸ hid)
  suspended id hid := htop ▸ h.suspended id (herased ▸ hid)
  active ha := by
    simp only [hactive, mentions_congr harena] at ha ⊢
    exact h.active ha
  erased he := by
    simp only [herasedAt, mentions_congr harena] at he ⊢
    exact h.erased he
  inForce hid x hx := by
    rw [hactive]
    rw [isActive_iff, htop, herased, ← isActive_iff] at hid
    exact h.inForce hid x ((mentions_congr harena).1 hx)
  shelved hid x hx := by
    rw [herasedAt]
    exact h.shelved (herased ▸ hid) x ((mentions_congr harena).1 hx)

theorem Filed.of_eq (h : s.Filed) (hatoms : t.atoms = s.atoms) (harena : t.arena = s.arena)
    (htop : t.topLevel = s.topLevel) (herased : t.erased = s.erased) : t.Filed :=
  h.congr harena htop herased (fun _ _ => by simp only [ActiveAt, hatoms])
    (fun _ _ => by simp only [ErasedAt, hatoms])

theorem Filed.ensureAtom (h : s.Filed) (key : AtomKey) : (s.ensureAtom key).Filed :=
  h.congr rfl rfl rfl (fun _ _ => activeAt_ensureAtom) (fun _ _ => erasedAt_ensureAtom)

/-- A change that leaves an atom's records alone. -/
theorem Filed.modifyAtom (h : s.Filed) (key : AtomKey) {g : Atom → Atom}
    (hactive : ∀ a, (g a).active = a.active) (herased : ∀ a, (g a).erased = a.erased) :
    (s.modifyAtom key g).Filed := by
  refine h.congr rfl rfl rfl (fun key' id => ?_) (fun key' id => ?_)
  · rw [activeAt_modifyAtom]
    by_cases hk : key' = key <;> simp [hk, hactive, ActiveAt]
  · rw [erasedAt_modifyAtom]
    by_cases hk : key' = key <;> simp [hk, herased, ErasedAt]

theorem Filed.intern (h : s.Filed) (c : Constraint) : (s.intern c).2.Filed := by
  obtain ⟨hatoms, htop, herased⟩ := intern_frame s c
  have hactiveAt : ∀ key id, (s.intern c).2.ActiveAt key id ↔ s.ActiveAt key id := fun _ _ => by
    simp only [ActiveAt, hatoms]
  have herasedAt : ∀ key id, (s.intern c).2.ErasedAt key id ↔ s.ErasedAt key id := fun _ _ => by
    simp only [ErasedAt, hatoms]
  have hmentions : ∀ {id}, id < s.arena.length → ∀ key, (s.intern c).2.Mentions id key ↔ s.Mentions id key :=
    fun hid key => by simp only [Mentions, formula?_intern s c hid]
  have hold : ∀ {id key}, s.Mentions id key → id < s.arena.length := by
    rintro id key ⟨f, hf, -⟩
    exact formula?_lt hf
  refine ⟨fun id hid => ?_, fun id hid => ?_, fun ha => ?_, fun he => ?_, fun hid x hx => ?_, fun hid x hx => ?_⟩
  · exact Nat.lt_of_lt_of_le (h.known id (htop ▸ hid)) (arena_length_intern s c)
  · exact htop ▸ h.suspended id (herased ▸ hid)
  · obtain ⟨hkey, hall⟩ := h.active ((hactiveAt _ _).1 ha)
    simp only [hactiveAt, hmentions (hold hkey)]
    exact ⟨hkey, hall⟩
  · obtain ⟨hkey, hall⟩ := h.erased ((herasedAt _ _).1 he)
    simp only [herasedAt, hmentions (hold hkey)]
    exact ⟨hkey, hall⟩
  · rw [isActive_iff, htop, herased] at hid
    rw [hmentions (h.known _ hid.1)] at hx
    exact (hactiveAt _ _).2 (h.inForce (isActive_iff.2 hid) x hx)
  · rw [herased] at hid
    rw [hmentions (h.known _ (h.suspended _ hid))] at hx
    exact (herasedAt _ _).2 (h.shelved hid x hx)

/-! ### Imposing a constraint -/

theorem isAddable_iff : s.isAddable id = true ↔ id < s.arena.length ∧ id ∉ s.erased ∧ id ∉ s.topLevel := by
  simp only [isAddable, Bool.and_eq_true, decide_eq_true_eq, Bool.not_eq_true',
    SortedSet.contains_eq_false_iff, and_assoc]

theorem add_of_not_isAddable (h : ¬ s.isAddable id = true) : s.add id = s := if_neg h

theorem add_of_isAddable (h : s.isAddable id = true) (hf : s.formula? id = some f) :
    s.add id = { f.atoms.toList.foldl (attach id) (s.imposeFilter f) with
      topLevel := (f.atoms.toList.foldl (attach id) (s.imposeFilter f)).topLevel.insert id } := by
  unfold Store.add
  simp only [if_pos h, hf]

theorem exists_formula?_of_isAddable (h : s.isAddable id = true) : ∃ f, s.formula? id = some f := by
  obtain ⟨hlt, -⟩ := isAddable_iff.1 h
  exact ⟨s.arena[id].formula, by simp [formula?, constraint?, List.getElem?_eq_getElem hlt]⟩

theorem records_imposeFilter (s : Store) (f : Formula) (key : AtomKey) (id : ConstraintId) :
    ((s.imposeFilter f).ActiveAt key id ↔ s.ActiveAt key id) ∧
      ((s.imposeFilter f).ErasedAt key id ↔ s.ErasedAt key id) := by
  have hforbid : ∀ (t : Store) (x : AtomKey) (k : Kind), ((t.forbid x k).ActiveAt key id ↔ t.ActiveAt key id) ∧
      ((t.forbid x k).ErasedAt key id ↔ t.ErasedAt key id) := by
    intro t x k
    unfold Store.forbid
    rw [activeAt_modifyAtom, erasedAt_modifyAtom]
    by_cases hx : key = x <;> simp [hx, ActiveAt, ErasedAt, Atom.forbid]
  unfold Store.imposeFilter
  split
  · split
    · exact ⟨(hforbid _ _ _).1.trans activeAt_ensureAtom, (hforbid _ _ _).2.trans erasedAt_ensureAtom⟩
    · exact ⟨Iff.rfl, Iff.rfl⟩
  · exact ⟨Iff.rfl, Iff.rfl⟩

/-- Imposing a constraint puts it on the records of those in force of all it mentions, and makes
it top-level. -/
theorem add_spec (h : s.isAddable id = true) :
    (∀ i, i ∈ (s.add id).topLevel ↔ i = id ∨ i ∈ s.topLevel) ∧ (s.add id).erased = s.erased ∧
      (∀ key i, (s.add id).ActiveAt key i ↔ s.ActiveAt key i ∨ i = id ∧ s.Mentions id key) ∧
      ∀ key i, (s.add id).ErasedAt key i ↔ s.ErasedAt key i := by
  obtain ⟨f, hf⟩ := exists_formula?_of_isAddable h
  rw [add_of_isAddable h hf]
  obtain ⟨-, htop, herased⟩ := attachAll_frame (s.imposeFilter f) id f.atoms.toList
  obtain ⟨-, htop', herased'⟩ := imposeFilter_frame s f
  have hself : ∀ key, key ∈ f.atoms.toList ↔ s.Mentions id key := fun key => by
    rw [← SortedSet.mem_def, Formula.mem_atoms]
    exact ⟨fun hk => ⟨f, hf, hk⟩, fun ⟨g, hg, hk⟩ => Option.some.inj (hg.symm.trans hf) ▸ hk⟩
  refine ⟨fun i => ?_, herased.trans herased', fun key i => ?_, fun key i => ?_⟩
  · show i ∈ SortedSet.insert _ id ↔ _
    rw [SortedSet.mem_insert, htop, htop']
  · refine (attachAll_spec id f.atoms.toList (s.imposeFilter f) key i).1.trans ?_
    rw [(records_imposeFilter s f key i).1, hself]
  · exact (attachAll_spec id f.atoms.toList (s.imposeFilter f) key i).2.1.trans (records_imposeFilter s f key i).2

theorem Filed.add (h : s.Filed) (id : ConstraintId) : (s.add id).Filed := by
  by_cases haddable : s.isAddable id = true
  · obtain ⟨htop, herased, hactive, herasedAt⟩ := add_spec haddable
    have harena := arena_add s id
    obtain ⟨hlt, -⟩ := isAddable_iff.1 haddable
    refine ⟨fun i hi => ?_, fun i hi => ?_, fun {key i} ha => ?_, fun {key i} he => ?_, fun {i} hi x hx => ?_,
      fun {i} hi x hx => ?_⟩
    · rw [harena]
      exact ((htop i).1 hi).elim (· ▸ hlt) (h.known i)
    · exact (htop i).2 (.inr (h.suspended i (herased ▸ hi)))
    · simp only [hactive, mentions_congr harena] at ha ⊢
      rcases ha with ha | ⟨rfl, hkey⟩
      · exact ⟨(h.active ha).1, fun x hx => .inl ((h.active ha).2 x hx)⟩
      · exact ⟨hkey, fun x hx => .inr ⟨rfl, hx⟩⟩
    · simp only [herasedAt, mentions_congr harena] at he ⊢
      exact h.erased he
    · rw [hactive]
      rw [mentions_congr harena] at hx
      rw [isActive_iff, htop, herased] at hi
      rcases hi.1 with rfl | ht
      · exact .inr ⟨rfl, hx⟩
      · exact .inl (h.inForce (isActive_iff.2 ⟨ht, hi.2⟩) x hx)
    · rw [herasedAt]
      exact h.shelved (herased ▸ hi) x ((mentions_congr harena).1 hx)
  · rwa [add_of_not_isAddable haddable]

/-! ### Taking a constraint out -/

theorem Filed.remove (h : s.Filed) (id : ConstraintId) : (s.remove id).Filed := by
  by_cases hid : id ∈ s.topLevel
  · obtain ⟨harena, htop, herased, -⟩ := remove_frame hid
    have htop : ∀ i, i ∈ (s.remove id).topLevel ↔ i ∈ s.topLevel ∧ i ≠ id := fun i => by
      rw [htop]
      exact SortedSet.mem_erase
    have herased : ∀ i, i ∈ (s.remove id).erased ↔ i ∈ s.erased ∧ i ≠ id := fun i => by
      rw [herased]
      exact SortedSet.mem_erase
    refine ⟨fun i hi => ?_, fun i hi => ?_, fun {key i} ha => ?_, fun {key i} he => ?_, fun {i} hi x hx => ?_,
      fun {i} hi x hx => ?_⟩
    · rw [harena]
      exact h.known i ((htop i).1 hi).1
    · rw [herased] at hi
      exact (htop i).2 ⟨h.suspended i hi.1, hi.2⟩
    · simp only [activeAt_remove hid, mentions_congr harena] at ha ⊢
      obtain ⟨hkey, hall⟩ := h.active ha.1
      exact ⟨hkey, fun x hx => ⟨hall x hx, fun e => ha.2 ⟨e.1, hkey⟩⟩⟩
    · simp only [erasedAt_remove, mentions_congr harena] at he ⊢
      exact h.erased he
    · rw [activeAt_remove hid]
      rw [isActive_iff, htop, herased] at hi
      refine ⟨h.inForce (isActive_iff.2 ⟨hi.1.1, fun e => hi.2 ⟨e, hi.1.2⟩⟩) x ((mentions_congr harena).1 hx), ?_⟩
      exact fun e => hi.1.2 e.1
    · rw [erasedAt_remove]
      exact h.shelved ((herased i).1 hi).1 x ((mentions_congr harena).1 hx)
  · rwa [remove_of_not_mem hid]

/-! ### Suspending a constraint -/

theorem Filed.erase (h : s.Filed) (id : ConstraintId) : (s.erase id).Filed := by
  by_cases hid : s.isActive id = true
  · obtain ⟨harena, htop, -⟩ := erase_frame s id
    have hall := h.inForce hid
    refine ⟨fun i hi => ?_, fun i hi => ?_, fun {key i} ha => ?_, fun {key i} he => ?_, fun {i} hi x hx => ?_,
      fun {i} hi x hx => ?_⟩
    · rw [harena]
      exact h.known i (htop ▸ hi)
    · rw [htop]
      rcases (mem_erased_erase hid).1 hi with rfl | hi
      · exact (isActive_iff.1 hid).1
      · exact h.suspended i hi
    · simp only [activeAt_erase hid, mentions_congr harena] at ha ⊢
      obtain ⟨hkey, hothers⟩ := h.active ha.1
      exact ⟨hkey, fun x hx => ⟨hothers x hx, fun e => ha.2 ⟨e.1, hkey⟩⟩⟩
    · simp only [erasedAt_erase hid, mentions_congr harena] at he ⊢
      rcases he with he | ⟨rfl, hkey, -⟩
      · exact ⟨(h.erased he).1, fun x hx => .inl ((h.erased he).2 x hx)⟩
      · exact ⟨hkey, fun x hx => .inr ⟨rfl, hx, hall x hx⟩⟩
    · rw [activeAt_erase hid]
      obtain ⟨hi, hne⟩ := isActive_erase.1 hi
      exact ⟨h.inForce hi x ((mentions_congr harena).1 hx), fun e => hne e.1⟩
    · rw [mentions_congr harena] at hx
      rw [erasedAt_erase hid]
      rcases (mem_erased_erase hid).1 hi with rfl | hi
      · exact .inr ⟨rfl, hx, hall x hx⟩
      · exact .inl (h.shelved hi x hx)
  · rwa [erase_of_not_active hid]

theorem Filed.eraseAll (h : s.Filed) (ids : List ConstraintId) : (ids.foldl Store.erase s).Filed := by
  induction ids generalizing s with
  | nil => exact h
  | cons id rest ih => exact ih (h.erase id)

/-- Restoring from an atom moves what it has on record from one record to the other, at every atom. -/
theorem Filed.records_restore (h : s.Filed) :
    ((s.restore key).ActiveAt key' id ↔ s.ActiveAt key' id ∨ s.ErasedAt key' id ∧ s.ErasedAt key id) ∧
      ((s.restore key).ErasedAt key' id ↔ s.ErasedAt key' id ∧ ¬ s.ErasedAt key id) := by
  rw [activeAt_restore, erasedAt_restore, mem_restorable]
  have hmentions : s.ErasedAt key' id → s.Mentions id key' := fun he => (h.erased he).1
  by_cases hk : key' = key
  · subst hk
    grind
  · grind

theorem Filed.restore (h : s.Filed) (key : AtomKey) : (s.restore key).Filed := by
  obtain ⟨harena, htop, herased, -⟩ := restore_frame s key
  refine ⟨fun i hi => ?_, fun i hi => ?_, fun {x i} ha => ?_, fun {x i} he => ?_, fun {i} hi x hx => ?_,
    fun {i} hi x hx => ?_⟩
  · rw [harena]
    exact h.known i (htop ▸ hi)
  · rw [htop]
    exact h.suspended i ((herased i).1 hi).1
  · simp only [h.records_restore, mentions_congr harena] at ha ⊢
    rcases ha with ha | ⟨he, hkey⟩
    · exact ⟨(h.active ha).1, fun y hy => .inl ((h.active ha).2 y hy)⟩
    · exact ⟨(h.erased he).1, fun y hy => .inr ⟨(h.erased he).2 y hy, hkey⟩⟩
  · simp only [h.records_restore, mentions_congr harena] at he ⊢
    exact ⟨(h.erased he.1).1, fun y hy => ⟨(h.erased he.1).2 y hy, he.2⟩⟩
  · rw [mentions_congr harena] at hx
    rw [isActive_iff, htop, herased, mem_restorable] at hi
    rw [h.records_restore.1]
    by_cases he : i ∈ s.erased
    · exact .inr ⟨h.shelved he x hx, Classical.byContradiction fun hkey => hi.2 ⟨he, hkey⟩⟩
    · exact .inl (h.inForce (isActive_iff.2 ⟨hi.1, he⟩) x hx)
  · rw [mentions_congr harena] at hx
    rw [herased, mem_restorable] at hi
    exact h.records_restore.2.2 ⟨h.shelved hi.1 x hx, hi.2⟩

/-! ### Every reachable store -/

theorem filed_empty : Filed {} where
  known _ hid := absurd hid (SortedSet.not_mem_empty _)
  suspended _ hid := absurd hid (SortedSet.not_mem_empty _)
  active := fun ⟨_, ha, _⟩ => nomatch ha
  erased := fun ⟨_, ha, _⟩ => nomatch ha
  inForce hid := absurd (isActive_iff.1 hid).1 (SortedSet.not_mem_empty _)
  shelved hid := absurd hid (SortedSet.not_mem_empty _)

theorem Filed.perform (h : s.Filed) (c : Operation) : (s.perform c).2.Filed := by
  cases c with
  | register key => exact h.ensureAtom key
  | forbid key k => exact h.modifyAtom key (fun _ => rfl) (fun _ => rfl)
  | prefer key soft => exact h.modifyAtom key (fun _ => rfl) (fun _ => rfl)
  | createEq a b why => exact h.intern _
  | createNot body =>
      rcases perform_createNot s body with he | ⟨c, he⟩ <;> rw [he]
      · exact h
      · exact h.intern c
  | createImplies premise conclusion =>
      rcases perform_createImplies s premise conclusion with he | ⟨c, he⟩ <;> rw [he]
      · exact h
      · exact h.intern c
  | add id => exact h.add id
  | remove id => exact h.remove id
  | erase id => exact h.erase id
  | restore key => exact h.restore key
  | makeNonWild key region =>
      show (s.makeNonWild key region).2.Filed
      unfold Store.makeNonWild
      split
      · exact (h.eraseAll _).of_eq rfl rfl rfl rfl
      · exact h
  | eraseReason reason => exact (h.eraseAll _).of_eq rfl rfl rfl rfl
  | reset | solve | startTrace | takeTrace => exact h.of_eq rfl rfl rfl rfl

/-- The atoms of every reachable store agree on what they record. -/
theorem Reachable.filed (h : s.Reachable) : s.Filed := by
  induction h with
  | empty => exact filed_empty
  | perform _ c ih => exact ih.perform c

end Store

end PointerKinds
