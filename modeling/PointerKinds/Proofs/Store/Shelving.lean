/-
Atoms that remember a constraint nobody else knows of.

An atom may have a constraint among its erased ones although the store does not have it on record
at all.  Such a memory does no harm by itself.  No step of the solver reads it, and every other
call leaves it where it is and does what it does without it.  It comes to life when one of these
atoms is restored: then the constraint is told to the caller as one that is back in force, and
the atoms count it so.
-/
import PointerKinds.Proofs.Solver.Memory
import PointerKinds.Proofs.Store.Persistence

namespace PointerKinds

namespace Store

/-- A constraint is on no record. -/
structure Unaware (s : Store) (id : ConstraintId) : Prop where
  topLevel : id ∉ s.topLevel
  erased : id ∉ s.erased
  activeAt : ∀ key, ¬ s.ActiveAt key id
  erasedAt : ∀ key, ¬ s.ErasedAt key id

/-- Puts a constraint among the erased ones of some atoms. -/
def shelve (s : Store) (id : ConstraintId) (keys : List AtomKey) : Store :=
  s.remember fun key erased => if key ∈ keys then erased.insert id else erased

/-- What some calls answer, one after the other. -/
def answers (s : Store) : List Operation → List Answer
  | [] => []
  | c :: rest => (s.perform c).1 :: (s.perform c).2.answers rest

variable {s t : Store} {id id' : ConstraintId} {key key' : AtomKey} {keys : List AtomKey} {c : Operation}

/-! ### One call -/

theorem get?_shelve : (s.shelve id keys).atoms.get? key = (s.atoms.get? key).map fun a =>
    a.recall (if key ∈ keys then a.erased.insert id else a.erased) :=
  get?_remember ..

theorem modifyAtom_shelve {g : Atom → Atom} (hg : key ∈ keys → ∀ a,
    g (a.recall (a.erased.insert id)) = (g a).recall ((g a).erased.insert id)) :
    (s.shelve id keys).modifyAtom key g = (s.modifyAtom key g).shelve id keys := by
  refine congrArg (fun atoms => ({ s with atoms } : Store)) (SortedMap.ext_get? fun key' => ?_)
  have hleft := SortedMap.get?_modify (s.shelve id keys).atoms key key' g
  have hright : ((s.modifyAtom key g).shelve id keys).atoms.get? key' = _ := get?_shelve
  refine (hleft.trans ?_).trans hright.symm
  simp only [get?_shelve, modifyAtom, SortedMap.get?_modify]
  by_cases hk : key' = key
  · subst hk
    simp only [if_true, Option.map_map]
    refine Option.map_congr fun a _ => ?_
    by_cases hmem : key' ∈ keys
    · simp only [Function.comp, if_pos hmem, hg hmem]
    · simp only [Function.comp, if_neg hmem]
      rfl
  · simp only [if_neg hk]

theorem modifyAtomsOf_shelve {g : Atom → Atom} (hg : ∀ a,
    g (a.recall (a.erased.insert id)) = (g a).recall ((g a).erased.insert id)) :
    (s.shelve id keys).modifyAtomsOf id' g = (s.modifyAtomsOf id' g).shelve id keys := by
  have hfold : ∀ (l : List AtomKey) (s : Store), l.foldl (fun s key => s.modifyAtom key g) (s.shelve id keys) =
      (l.foldl (fun s key => s.modifyAtom key g) s).shelve id keys := by
    intro l
    induction l with
    | nil => exact fun _ => rfl
    | cons key rest ih =>
        intro s
        rw [List.foldl_cons, List.foldl_cons, modifyAtom_shelve fun _ => hg, ih]
  have hformula : (s.shelve id keys).formula? id' = s.formula? id' := rfl
  unfold modifyAtomsOf
  rw [hformula]
  cases s.formula? id' with
  | none => rfl
  | some f => exact hfold _ s

theorem ensureAtom_shelve (hreg : key ∈ keys → s.atoms.contains key = true) :
    (s.shelve id keys).ensureAtom key = (s.ensureAtom key).shelve id keys := by
  refine congrArg (fun atoms => ({ s.ensureAtom key with atoms } : Store)) (SortedMap.ext_get? fun key' => ?_)
  have hleft := atoms_ensureAtom (s.shelve id keys) key key'
  have hright : ((s.ensureAtom key).shelve id keys).atoms.get? key' = _ := get?_shelve
  refine (hleft.trans ?_).trans hright.symm
  simp only [get?_shelve, atoms_ensureAtom, Option.map_eq_none_iff]
  by_cases hk : key' = key ∧ s.atoms.get? key = none
  · obtain ⟨rfl, hnone⟩ := hk
    have hnot : key' ∉ keys := fun hmem => by
      have hsome := hreg hmem
      rw [SortedMap.contains, hnone] at hsome
      cases hsome
    simp [hnone, hnot, Atom.recall]
  · simp only [if_neg hk]

theorem attach_shelve (hreg : key ∈ keys → s.atoms.contains key = true) :
    (s.shelve id keys).attach id' key = (s.attach id' key).shelve id keys := by
  unfold Store.attach
  rw [ensureAtom_shelve hreg, modifyAtom_shelve]
  exact fun _ _ => rfl

theorem erase_shelve (i : ConstraintId) : (s.shelve id keys).erase i = (s.erase i).shelve id keys := by
  have hactive : (s.shelve id keys).isActive i = s.isActive i := rfl
  unfold Store.erase
  rw [hactive]
  split
  · refine (modifyAtomsOf_shelve (s := { s with erased := s.erased.insert i }) fun a => ?_)
    unfold Atom.erase Atom.recall
    dsimp only
    split
    · rw [SortedSet.insert_comm]
    · rfl
  · rfl

theorem eraseAll_shelve (ids : List ConstraintId) :
    ids.foldl Store.erase (s.shelve id keys) = (ids.foldl Store.erase s).shelve id keys := by
  induction ids generalizing s with
  | nil => rfl
  | cons i rest ih => rw [List.foldl_cons, List.foldl_cons, erase_shelve, ih]

theorem remove_shelve (i : ConstraintId) : (s.shelve id keys).remove i = (s.remove i).shelve id keys := by
  have htop : (s.shelve id keys).topLevel = s.topLevel := rfl
  unfold Store.remove
  rw [htop]
  split
  · exact modifyAtomsOf_shelve (s := { s with topLevel := s.topLevel.erase i, erased := s.erased.erase i })
      fun _ => rfl
  · rfl

theorem reinstate_shelve {i : ConstraintId} (hi : i ≠ id) :
    (s.shelve id keys).reinstate i = (s.reinstate i).shelve id keys := by
  refine modifyAtomsOf_shelve (s := { s with erased := s.erased.erase i }) fun a => ?_
  have hmem : (a.erased.insert id).contains i = a.erased.contains i := by
    rw [Bool.eq_iff_iff, SortedSet.contains_iff, SortedSet.contains_iff, SortedSet.mem_insert]
    exact or_iff_right hi
  unfold Atom.restore Atom.recall
  dsimp only
  rw [hmem, SortedSet.erase_insert_comm _ hi]
  split <;> rfl

theorem restorable_shelve (hkey : key ∉ keys) : (s.shelve id keys).restorable key = s.restorable key := by
  unfold restorable
  rw [get?_shelve]
  cases s.atoms.get? key with
  | none => rfl
  | some a => simp only [Option.map_some, if_neg hkey]; rfl

theorem restore_shelve (hkey : key ∉ keys) (hid : ¬ s.ErasedAt key id) :
    (s.shelve id keys).restore key = (s.restore key).shelve id keys := by
  have hfold : ∀ (ids : List ConstraintId) (s : Store), id ∉ ids →
      ids.foldl reinstate (s.shelve id keys) = (ids.foldl reinstate s).shelve id keys := by
    intro ids
    induction ids with
    | nil => exact fun _ _ => rfl
    | cons i rest ih =>
        intro s hnot
        obtain ⟨hne, hrest⟩ := not_or.1 (mt List.mem_cons.2 hnot)
        rw [List.foldl_cons, List.foldl_cons, reinstate_shelve fun e => hne e.symm, ih _ hrest]
  unfold Store.restore
  rw [restorable_shelve hkey, modifyAtom_shelve fun hmem => absurd hmem hkey]
  exact hfold _ _ fun hmem => hid (mem_restorable.1 hmem)

theorem intern_shelve (c : Constraint) :
    (s.shelve id keys).intern c = ((s.intern c).1, (s.intern c).2.shelve id keys) := by
  have hfind : (s.shelve id keys).find? c.formula = s.find? c.formula := rfl
  unfold intern
  rw [hfind]
  cases s.find? c.formula <;> rfl

theorem imposeFilter_shelve (hreg : ∀ key ∈ keys, s.atoms.contains key = true) (f : Formula) :
    (s.shelve id keys).imposeFilter f = (s.imposeFilter f).shelve id keys := by
  unfold imposeFilter
  split
  · split
    · rw [ensureAtom_shelve (hreg _)]
      exact modifyAtom_shelve fun _ _ => rfl
    · rfl
  · rfl

theorem add_shelve (hreg : ∀ key ∈ keys, s.atoms.contains key = true) (i : ConstraintId) :
    (s.shelve id keys).add i = (s.add i).shelve id keys := by
  have hfold : ∀ (l : List AtomKey) (s : Store), (∀ key ∈ keys, s.atoms.contains key = true) →
      l.foldl (attach i) (s.shelve id keys) = (l.foldl (attach i) s).shelve id keys := by
    intro l
    induction l with
    | nil => exact fun _ _ => rfl
    | cons key rest ih =>
        intro s hreg
        rw [List.foldl_cons, List.foldl_cons, attach_shelve (hreg key), ih]
        exact fun x hx => (filtersKept_attachAll s i [key]).contains (hreg x hx)
  by_cases haddable : s.isAddable i = true
  · obtain ⟨f, hf⟩ := exists_formula?_of_isAddable haddable
    have haddable' : (s.shelve id keys).isAddable i = true := haddable
    have hf' : (s.shelve id keys).formula? i = some f := hf
    rw [add_of_isAddable haddable hf, add_of_isAddable haddable' hf', imposeFilter_shelve hreg,
      hfold _ _ fun x hx => (filtersKept_imposeFilter s f).contains (hreg x hx)]
    rfl
  · have haddable' : ¬ (s.shelve id keys).isAddable i = true := haddable
    rw [add_of_not_isAddable haddable, add_of_not_isAddable haddable']

theorem makeNonWild_shelve (region : List AtomKey) : (s.shelve id keys).makeNonWild key region =
    ((s.makeNonWild key region).1, (s.makeNonWild key region).2.shelve id keys) := by
  have hvalue : (s.shelve id keys).value key = s.value key := rfl
  have hforcing : (s.shelve id keys).wildForcing key = s.wildForcing key := wildForcing_remember ..
  unfold makeNonWild
  rw [hvalue, hforcing, eraseAll_shelve]
  generalize (s.wildForcing key).foldl Store.erase s = t
  have hcontains : (t.shelve id keys).atoms.contains = t.atoms.contains := funext fun _ => contains_remember ..
  have hlower : ∀ l, (t.shelve id keys).lower l = (t.lower l).shelve id keys := fun _ => rfl
  have hsolution : ∀ (u : Store) (l : List AtomKey), (u.shelve id keys).solution l = u.solution l :=
    fun _ _ => solution_remember ..
  split
  · simp only [hcontains, hlower, hsolution]
    rfl
  · rfl

/-- Every call does what it does without the memory, and leaves it where it is; unless it restores an
atom that remembers. -/
theorem perform_shelve (hreg : ∀ key ∈ keys, s.atoms.contains key = true)
    (hc : ∀ key, c = .restore key → key ∉ keys ∧ ¬ s.ErasedAt key id) :
    (s.shelve id keys).perform c = ((s.perform c).1, (s.perform c).2.shelve id keys) := by
  have hsolve : ∀ u : Store, (u.shelve id keys).solve = (u.solve.1, u.solve.2.shelve id keys) :=
    fun _ => solve_remember ..
  cases c with
  | register key => exact congrArg (Answer.done, ·) (ensureAtom_shelve (hreg key))
  | forbid key k => exact congrArg (Answer.done, ·) (modifyAtom_shelve fun _ _ => rfl)
  | prefer key soft => exact congrArg (Answer.done, ·) (modifyAtom_shelve fun _ _ => rfl)
  | createEq a b why =>
      simp only [perform, createEq, intern_shelve]
  | createNot body =>
      have hformula : (s.shelve id keys).formula? body = s.formula? body := rfl
      simp only [perform, createNot?, hformula]
      cases s.formula? body with
      | none => rfl
      | some f => simp only [Option.map_some, intern_shelve]
  | createImplies premise conclusion =>
      have hformula : ∀ i, (s.shelve id keys).formula? i = s.formula? i := fun _ => rfl
      simp only [perform, createImplies?, hformula]
      cases s.formula? premise with
      | none => rfl
      | some p =>
          cases s.formula? conclusion with
          | none => rfl
          | some c => simp only [Option.bind_some, Option.map_some, intern_shelve]
  | add i => exact congrArg (Answer.changed (s.isAddable i), ·) (add_shelve hreg i)
  | remove i => exact congrArg (Answer.changed (s.topLevel.contains i), ·) (remove_shelve i)
  | erase i => exact congrArg (Answer.changed (s.isActive i), ·) (erase_shelve i)
  | restore key =>
      obtain ⟨hkey, hid⟩ := hc key rfl
      simp only [perform, restorable_shelve hkey, restore_shelve hkey hid]
  | solve => simp only [perform, hsolve]
  | makeNonWild key region => simp only [perform, makeNonWild_shelve]
  | eraseReason reason =>
      have htargets : (s.shelve id keys).wildWithReason reason = s.wildWithReason reason := rfl
      have hreset : ∀ u : Store, (u.shelve id keys).reset = u.reset.shelve id keys := fun _ => rfl
      simp only [perform, eraseReason, htargets, eraseAll_shelve, hreset, hsolve]
  | reset | startTrace | takeTrace => rfl

/-! ### Later calls -/

theorem Unaware.of_noNews (h : s.Unaware id) (hnews : s.NoNews t id) : t.Unaware id := by
  have hnone : ∀ key, ¬ (s.ActiveAt key id ∨ s.ErasedAt key id) := fun key hkey =>
    hkey.elim (h.activeAt key) (h.erasedAt key)
  exact {
    topLevel := fun hid => h.topLevel (hnews.topLevel hid)
    erased := fun hid => (hnews.erased hid).elim h.erased h.topLevel
    activeAt := fun key ha => hnone key (hnews.recorded key (.inl ha))
    erasedAt := fun key he => hnone key (hnews.recorded key (.inr he)) }

/-- Calls on a store that is otherwise unaware of a constraint answer as if no atom remembered it,
exactly if none that does is restored; and then they lead to the same store with the same memory. -/
theorem answers_shelve (hs : s.Unaware id) (hreg : ∀ key ∈ keys, s.atoms.contains key = true)
    {calls : List Operation} (hcalls : .add id ∉ calls) :
    ((s.shelve id keys).answers calls = s.answers calls ↔ ∀ key ∈ keys, .restore key ∉ calls) ∧
      ((∀ key ∈ keys, .restore key ∉ calls) →
        (s.shelve id keys).performAll calls = (s.performAll calls).shelve id keys) := by
  induction calls generalizing s with
  | nil => simp [answers, performAll]
  | cons c rest ih =>
      obtain ⟨hc, hrest⟩ := not_or.1 (mt List.mem_cons.2 hcalls)
      by_cases hrestores : ∃ key ∈ keys, c = .restore key
      · obtain ⟨key, hkey, rfl⟩ := hrestores
        have hnot : ¬ ∀ key' ∈ keys, .restore key' ∉ Operation.restore key :: rest := fun h =>
          h key hkey List.mem_cons_self
        refine ⟨iff_of_false (fun he => ?_) hnot, fun h => absurd h hnot⟩
        -- The first answer names the constraint on one side only.
        have hfirst : (s.shelve id keys).restorable key = s.restorable key :=
          Answer.restored.inj (List.cons.inj he).1
        obtain ⟨a, ha⟩ := Option.isSome_iff_exists.1 (hreg key hkey)
        have hshelved : (s.shelve id keys).ErasedAt key id := by
          refine ⟨_, get?_shelve.trans (congrArg _ ha), ?_⟩
          simp [hkey, Atom.recall]
        exact hs.erasedAt key (mem_restorable.1 (hfirst ▸ mem_restorable.2 hshelved))
      · have hstep : (s.shelve id keys).perform c = ((s.perform c).1, (s.perform c).2.shelve id keys) :=
          perform_shelve hreg fun key he => ⟨fun hkey => hrestores ⟨key, hkey, he⟩, hs.erasedAt key⟩
        have hnext := ih (hs.of_noNews (noNews_perform s fun e => hc e.symm))
          (fun key hkey => (filtersKept_perform s c).contains (hreg key hkey)) hrest
        have hcons : (∀ key ∈ keys, .restore key ∉ c :: rest) ↔ ∀ key ∈ keys, .restore key ∉ rest := by
          refine forall₂_congr fun key hkey => ?_
          rw [List.mem_cons, not_or, and_iff_right]
          exact fun e => hrestores ⟨key, hkey, e.symm⟩
        rw [hcons]
        simp only [answers, performAll, List.foldl_cons, hstep, List.cons.injEq, true_and]
        exact hnext

end Store

end PointerKinds
