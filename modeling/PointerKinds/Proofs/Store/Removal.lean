/-
What a constraint that was taken out leaves behind.

A store that never imposed a constraint has it on no record, and what it stands for as a
filter bars nothing.  `forget` makes such a store of any other: where a constraint was not
imposed, to impose it and to forget it changes nothing.  Taking a constraint out should come to
forgetting it.  It does not always.  The filter stays, for good.  And an
atom that has the constraint among its erased ones keeps it there, though the store does not; so
taking out an erased constraint is forgetting it everywhere but with the atoms it mentions.
-/
import PointerKinds.Proofs.Store.Shelving

namespace PointerKinds

namespace Atom

/-- Takes a constraint off both records. -/
def forget (a : Atom) (id : ConstraintId) : Atom :=
  { a with active := a.active.erase id, erased := a.erased.erase id }

/-- Takes a kind out of the filter. -/
def permit (a : Atom) (k : Kind) : Atom := { a with forbidden := a.forbidden.erase k }

end Atom

namespace Store

/-! ### Forgetting -/

/-- Takes a constraint off every record there is. -/
def dismiss (s : Store) (id : ConstraintId) : Store :=
  { s with
    atoms := s.atoms.mapValues fun _ a => a.forget id
    topLevel := s.topLevel.erase id
    erased := s.erased.erase id }

/-- Takes a constraint off every record, and its kind out of the filter if it is one. -/
def forget (s : Store) (id : ConstraintId) : Store :=
  match s.filterOf? id with
  | some (key, k) => (s.dismiss id).modifyAtom key (·.permit k)
  | none => s.dismiss id

/-- The atoms that have a constraint among their erased ones. -/
def holders (s : Store) (id : ConstraintId) : List AtomKey :=
  s.atoms.keys.filter fun key => (s.restorable key).contains id

variable {s t : Store} {id id' : ConstraintId} {key key' : AtomKey} {keys : List AtomKey} {f : Formula} {k : Kind}

theorem ErasedAt.contains (h : s.ErasedAt key id) : s.atoms.contains key = true :=
  Option.isSome_iff_exists.2 (h.imp fun _ ha => ha.1)

theorem mem_holders : key ∈ s.holders id ↔ s.ErasedAt key id := by
  unfold holders
  rw [List.mem_filter, List.contains_iff_mem, mem_restorable, SortedMap.mem_keys_iff]
  exact and_iff_right_of_imp ErasedAt.contains

theorem activeAt_dismiss : (s.dismiss id).ActiveAt key id' ↔ s.ActiveAt key id' ∧ id' ≠ id := by
  unfold ActiveAt dismiss
  simp only [SortedMap.get?_mapValues, exists_map_eq_some, Atom.forget, SortedSet.mem_erase]
  grind

theorem erasedAt_dismiss : (s.dismiss id).ErasedAt key id' ↔ s.ErasedAt key id' ∧ id' ≠ id := by
  unfold ErasedAt dismiss
  simp only [SortedMap.get?_mapValues, exists_map_eq_some, Atom.forget, SortedSet.mem_erase]
  grind

theorem unaware_dismiss (s : Store) (id : ConstraintId) : (s.dismiss id).Unaware id where
  topLevel h := (SortedSet.mem_erase.1 h).2 rfl
  erased h := (SortedSet.mem_erase.1 h).2 rfl
  activeAt _ h := (activeAt_dismiss.1 h).2 rfl
  erasedAt _ h := (erasedAt_dismiss.1 h).2 rfl

theorem forget_of_filterOf? (h : s.filterOf? id = none) : s.forget id = s.dismiss id := by
  unfold forget
  rw [h]

/-- To forget a constraint is to have it on no record. -/
theorem unaware_forget (s : Store) (id : ConstraintId) : (s.forget id).Unaware id := by
  unfold forget
  split
  · exact (unaware_dismiss s id).of_noNews (noNews_modifyAtom _ _ (fun _ => rfl) (fun _ => rfl))
  · exact unaware_dismiss s id

theorem not_forbids_forget (hf : s.filterOf? id = some (key, k)) : ¬ (s.forget id).forbids key k = true := by
  intro h
  unfold forget at h
  rw [hf] at h
  obtain ⟨a, ha, hmem⟩ := forbids_iff.1 h
  simp only [modifyAtom, SortedMap.get?_modify_self, Option.map_eq_some_iff] at ha
  obtain ⟨b, -, rfl⟩ := ha
  exact (SortedSet.mem_erase.1 hmem).2 rfl

/-! ### Taking a constraint out -/

theorem modifyAll_eq (g : Atom → Atom) (keys : List AtomKey) (s : Store) :
    keys.foldl (fun s key => s.modifyAtom key g) s =
      { s with atoms := (keys.foldl (fun s key => s.modifyAtom key g) s).atoms } := by
  induction keys generalizing s with
  | nil => rfl
  | cons key rest ih => exact ih (s.modifyAtom key g)

theorem modifyAtomsOf_eq (s : Store) (id : ConstraintId) (g : Atom → Atom) :
    s.modifyAtomsOf id g = { s with atoms := (s.modifyAtomsOf id g).atoms } := by
  unfold modifyAtomsOf
  split
  · exact modifyAll_eq g _ s
  · rfl

theorem recall_forget_eq_detach {a : Atom} (ha : s.atoms.get? key = some a) :
    (a.forget id).recall (if key ∈ s.holders id then (a.erased.erase id).insert id else a.erased.erase id) =
      a.detach id := by
  have hholds : key ∈ s.holders id ↔ id ∈ a.erased := by
    rw [mem_holders, ErasedAt, ha]
    simp
  have hkept : (if key ∈ s.holders id then (a.erased.erase id).insert id else a.erased.erase id) = a.erased := by
    by_cases hmem : id ∈ a.erased
    · rw [if_pos (hholds.2 hmem), SortedSet.insert_erase hmem]
    · rw [if_neg (mt hholds.1 hmem), SortedSet.erase_of_not_mem hmem]
  rw [hkept]
  rfl

/-- Taking a constraint out is dismissing it everywhere but where it is remembered as erased. -/
theorem Filed.remove_eq (h : s.Filed) (hid : id ∈ s.topLevel) :
    s.remove id = (s.dismiss id).shelve id (s.holders id) := by
  have hatoms : ∀ key, ((s.dismiss id).shelve id (s.holders id)).atoms.get? key =
      (s.atoms.get? key).map (·.detach id) := fun key => by
    rw [get?_shelve, dismiss, SortedMap.get?_mapValues, Option.map_map]
    exact Option.map_congr fun a ha => recall_forget_eq_detach ha
  unfold Store.remove
  rw [if_pos (SortedSet.contains_iff.2 hid), modifyAtomsOf_eq]
  refine congrArg (fun atoms => ({ s with
    atoms, topLevel := s.topLevel.erase id, erased := s.erased.erase id } : Store)) (SortedMap.ext_get? fun key => ?_)
  refine ((atoms_modifyAtomsOf ..).trans ?_).trans (hatoms key).symm
  split
  · rfl
  · rename_i hm
    -- An atom that is not mentioned does not have the constraint on record to begin with.
    refine Option.map_id'.symm.trans (Option.map_congr fun a ha => ?_)
    have hnot : id ∉ a.active := fun hmem => hm (h.active ⟨a, ha, hmem⟩).1
    rw [Atom.detach, SortedSet.erase_of_not_mem hnot]

/-! ### Forgetting undoes imposing -/

theorem ensureAtom_modifyAtom (h : s.ensureAtom key = s) (g : Atom → Atom) :
    (s.modifyAtom key' g).ensureAtom key = s.modifyAtom key' g := by
  have hcontains : (s.atoms.modify key' g).contains key = true :=
    contains_modifyAtom.trans (h ▸ contains_ensureAtom.2 (.inl rfl))
  have hatoms : (s.atoms.modify key' g).insertNew key {} = s.atoms.modify key' g := by
    unfold SortedMap.insertNew
    rw [if_pos hcontains]
  refine (congrArg (fun atoms => ({ s.ensureAtom key with atoms } : Store)) hatoms).trans ?_
  rw [h]
  rfl

theorem attachAll_eq (hreg : ∀ key ∈ keys, s.ensureAtom key = s) :
    keys.foldl (attach id) s = keys.foldl (fun s key => s.modifyAtom key (·.attach id)) s := by
  induction keys generalizing s with
  | nil => rfl
  | cons key rest ih =>
      have hattach : s.attach id key = s.modifyAtom key (·.attach id) := by
        rw [Store.attach, hreg key List.mem_cons_self]
      rw [List.foldl_cons, List.foldl_cons, hattach]
      exact ih fun x hx => ensureAtom_modifyAtom (hreg x (List.mem_cons_of_mem key hx)) _

theorem get?_attachAll (hreg : ∀ key ∈ keys, s.ensureAtom key = s) (hnodup : keys.Nodup) :
    (keys.foldl (attach id) s).atoms.get? key =
      if key ∈ keys then (s.atoms.get? key).map (·.attach id) else s.atoms.get? key := by
  rw [attachAll_eq hreg]
  exact atoms_modifyAll _ hnodup s key

theorem attachAll_eq_withAtoms (hreg : ∀ key ∈ keys, s.ensureAtom key = s) :
    keys.foldl (attach id) s = { s with atoms := (keys.foldl (attach id) s).atoms } := by
  rw [attachAll_eq hreg]
  exact modifyAll_eq _ _ s

/-- A constraint that no record of an atom has is taken off again without a trace. -/
theorem Unaware.forget_attach (h : s.Unaware id) {a : Atom} (ha : s.atoms.get? key = some a) :
    a.forget id = a ∧ (a.attach id).forget id = a := by
  have hactive : id ∉ a.active := fun hmem => h.activeAt key ⟨a, ha, hmem⟩
  have herased : id ∉ a.erased := fun hmem => h.erasedAt key ⟨a, ha, hmem⟩
  unfold Atom.forget Atom.attach
  rw [SortedSet.erase_of_not_mem hactive, SortedSet.erase_of_not_mem herased, SortedSet.erase_insert hactive]
  exact ⟨rfl, rfl⟩

theorem imposeFilter_of_filter? (hf : f.filter? = some (key, k)) :
    s.imposeFilter f = (s.ensureAtom key).forbid key k := by
  obtain rfl := filter?_eq_some.1 hf
  rfl

theorem imposeFilter_of_none (hf : f.filter? = none) : s.imposeFilter f = s := by
  cases f with
  | eq | implies => rfl
  | not body =>
      have hbody : body.atomKind? = none := hf
      simp only [imposeFilter, hbody]

theorem Unaware.imposeFilter (h : s.Unaware id) (f : Formula) : (s.imposeFilter f).Unaware id := by
  obtain ⟨-, htop, herased⟩ := imposeFilter_frame s f
  exact h.of_noNews (.of_records htop herased (fun key => (records_imposeFilter s f key id).1)
    fun key => (records_imposeFilter s f key id).2)

theorem ensureAtom_imposeFilter (hreg : ∀ key ∈ f.mentions, s.ensureAtom key = s) (hkey : key ∈ f.mentions) :
    (s.imposeFilter f).ensureAtom key = s.imposeFilter f := by
  cases hf : f.filter? with
  | none =>
      rw [imposeFilter_of_none hf]
      exact hreg key hkey
  | some c =>
      obtain ⟨x, k⟩ := c
      have hx : x ∈ f.mentions := filter?_eq_some.1 hf ▸ List.mem_singleton_self x
      rw [imposeFilter_of_filter? hf, hreg x hx]
      exact ensureAtom_modifyAtom (hreg key hkey) _

/-- To impose a constraint and to dismiss it leaves its filter. -/
theorem dismiss_add (h : s.Unaware id) (haddable : s.isAddable id = true) (hf : s.formula? id = some f)
    (hreg : ∀ key ∈ f.mentions, s.ensureAtom key = s) : (s.add id).dismiss id = s.imposeFilter f := by
  have hunaware := h.imposeFilter f
  have hreg' : ∀ key ∈ f.atoms.toList, (s.imposeFilter f).ensureAtom key = s.imposeFilter f := fun key hkey =>
    ensureAtom_imposeFilter hreg (Formula.mem_atoms.1 hkey)
  rw [add_of_isAddable haddable hf, attachAll_eq_withAtoms hreg']
  generalize s.imposeFilter f = t at hunaware hreg'
  have hatoms : (f.atoms.toList.foldl (attach id) t).atoms.mapValues (fun _ a => a.forget id) = t.atoms := by
    refine SortedMap.ext_get? fun key => ?_
    rw [SortedMap.get?_mapValues, get?_attachAll hreg' (SortedSet.nodup_toList _)]
    cases ha : t.atoms.get? key with
    | none => split <;> rfl
    | some a =>
        obtain ⟨hforget, hattach⟩ := hunaware.forget_attach ha
        split
        · exact congrArg some hattach
        · exact congrArg some hforget
  unfold dismiss
  dsimp only
  rw [hatoms, SortedSet.erase_insert hunaware.topLevel, SortedSet.erase_of_not_mem hunaware.erased]

/-- A constraint that a store knows and has not imposed. -/
structure Unimposed (s : Store) (id : ConstraintId) : Prop where
  known : id < s.arena.length
  unaware : s.Unaware id
  /-- The atoms it mentions are there. -/
  registered : ∀ key, s.Mentions id key → s.ensureAtom key = s
  /-- The filter it stands for is not heeded. -/
  unheeded : ∀ key k, s.filterOf? id = some (key, k) → s.forbids key k = false

theorem Unimposed.isAddable (h : s.Unimposed id) : s.isAddable id = true := by
  have htop : s.topLevel.contains id = false := Bool.eq_false_iff.2 (mt SortedSet.contains_iff.1 h.unaware.topLevel)
  have herased : s.erased.contains id = false := Bool.eq_false_iff.2 (mt SortedSet.contains_iff.1 h.unaware.erased)
  simp [Store.isAddable, h.known, htop, herased]

/-- **Forgetting undoes imposing.** -/
theorem forget_add (h : s.Unimposed id) : (s.add id).forget id = s := by
  obtain ⟨f, hf⟩ := exists_formula?_of_isAddable h.isAddable
  have hreg : ∀ key ∈ f.mentions, s.ensureAtom key = s := fun key hkey => h.registered key ⟨f, hf, hkey⟩
  have hfilter : s.filterOf? id = f.filter? := by rw [filterOf?, hf, Option.bind_some]
  have hfilterOf : (s.add id).filterOf? id = f.filter? := by
    rw [filterOf?, formula?_congr (arena_add s id), hf, Option.bind_some]
  unfold forget
  rw [hfilterOf, dismiss_add h.unaware h.isAddable hf hreg]
  cases hc : f.filter? with
  | none => exact imposeFilter_of_none hc
  | some c =>
      obtain ⟨key, k⟩ := c
      have hkey : key ∈ f.mentions := filter?_eq_some.1 hc ▸ List.mem_singleton_self key
      rw [imposeFilter_of_filter? hc, hreg key hkey]
      refine congrArg (fun atoms => ({ s with atoms } : Store)) (SortedMap.ext_get? fun key' => ?_)
      show ((s.atoms.modify key (·.forbid k)).modify key (·.permit k)).get? key' = s.atoms.get? key'
      rw [SortedMap.get?_modify, SortedMap.get?_modify]
      by_cases he : key' = key
      · rw [if_pos he, if_pos he, Option.map_map, he]
        refine (Option.map_congr fun a ha => ?_).trans Option.map_id'
        have hnot : k ∉ a.forbidden := fun hmem => by
          have hforbids := forbids_iff.2 ⟨a, ha, hmem⟩
          rw [h.unheeded key k (hfilter.trans hc)] at hforbids
          cases hforbids
        simp only [Function.comp, Atom.forbid, Atom.permit, SortedSet.erase_insert hnot]
      · rw [if_neg he, if_neg he]

/-! ### What taking out leaves behind -/

theorem shelve_nil (s : Store) (id : ConstraintId) : s.shelve id [] = s := by
  refine congrArg (fun atoms => ({ s with atoms } : Store)) (SortedMap.ext_get? fun key => ?_)
  refine get?_shelve.trans ?_
  simp only [List.not_mem_nil, if_false]
  exact Option.map_id' ▸ Option.map_congr fun _ _ => rfl

theorem Reachable.remove_eq_forget_iff (h : s.Reachable) (hid : id ∈ s.topLevel) :
    s.remove id = s.forget id ↔ (∀ key, ¬ s.ErasedAt key id) ∧ s.filterOf? id = none := by
  constructor
  · intro he
    refine ⟨fun key hkey => ?_, Option.eq_none_iff_forall_ne_some.2 fun ⟨key, k⟩ hf => ?_⟩
    · exact (unaware_forget s id).erasedAt key (he ▸ erasedAt_remove.2 hkey)
    · exact not_forbids_forget hf (he ▸ (filtersKept_remove s id).forbids (h.forbids hid hf))
  · rintro ⟨hnone, hf⟩
    have hholders : s.holders id = [] := List.eq_nil_iff_forall_not_mem.2 fun key hkey =>
      hnone key (mem_holders.1 hkey)
    rw [h.filed.remove_eq hid, hholders, shelve_nil, forget_of_filterOf? hf]

/-- **What a removed constraint still does.**  Forgetting a constraint leads back to the store
from before it was imposed, if it was imposed just now, and in any case to one that has it on no
record and does not heed its filter.  Taking it out of a reachable store is forgetting it exactly
if no atom has it among its erased ones and it does not stand for a filter.

If atoms do have it there, as all it mentions have if it is erased when it is taken out, they keep
it.  Whatever calls follow, short of imposing it again, they answer as on the store that dismissed
it, exactly if none restores one of these atoms; and then they lead to the same store but for that
memory.  If it stands for a filter, the kind stays barred whatever calls follow. -/
theorem remove_leaves (hs : s.Reachable) (hid : id ∈ s.topLevel) :
    ((∀ t : Store, t.Unimposed id → s = t.add id → s.forget id = t) ∧ (s.forget id).Unaware id ∧
      ∀ key k, s.filterOf? id = some (key, k) → (s.forget id).forbids key k = false) ∧
    (s.remove id = s.forget id ↔ (∀ key, ¬ s.ErasedAt key id) ∧ s.filterOf? id = none) ∧
    (s.filterOf? id = none → s.dismiss id = s.forget id) ∧
    (id ∈ s.erased → ∀ key, s.Mentions id key → s.ErasedAt key id) ∧
    (∀ calls : List Operation, .add id ∉ calls →
      ((s.remove id).answers calls = (s.dismiss id).answers calls ↔
        ∀ key, s.ErasedAt key id → .restore key ∉ calls) ∧
      ((∀ key, s.ErasedAt key id → .restore key ∉ calls) →
        (s.remove id).performAll calls = ((s.dismiss id).performAll calls).shelve id (s.holders id))) ∧
    ∀ key k, s.filterOf? id = some (key, k) →
      ∀ calls : List Operation, ((s.remove id).performAll calls).forbids key k = true := by
  refine ⟨⟨?_, unaware_forget s id, fun _ _ hf => Bool.eq_false_iff.2 (not_forbids_forget hf)⟩,
    hs.remove_eq_forget_iff hid, fun hf => (forget_of_filterOf? hf).symm, fun he key hkey =>
    hs.filed.shelved he key hkey, fun calls hcalls => ?_, fun key k hf calls => ?_⟩
  · rintro t ht rfl
    exact forget_add ht
  · have hreg : ∀ key ∈ s.holders id, (s.dismiss id).atoms.contains key = true := by
      intro key hkey
      obtain ⟨a, ha, -⟩ := mem_holders.1 hkey
      refine Option.isSome_iff_exists.2 ⟨a.forget id, ?_⟩
      rw [dismiss, SortedMap.get?_mapValues, ha, Option.map_some]
    have hlater := answers_shelve (unaware_dismiss s id) hreg hcalls
    simp only [mem_holders] at hlater
    rwa [hs.filed.remove_eq hid]
  · exact ((filtersKept_remove s id).trans (filtersKept_performAll _ calls)).forbids (hs.forbids hid hf)

/-! ### Two concrete stores -/

/-- What makes an atom unchecked was erased. -/
def suspended : Store := performAll {} [.createEq (.atom 0) (.kind .wild) { reason := "why" }, .add 0, .erase 0]

/-- An atom may not be unchecked, and the constraint that would make it so is not imposed. -/
def barring : Store := performAll {} [.createEq (.atom 0) (.kind .wild) {}, .createNot 0, .add 1]

/-- To forget the constraint is to have it on no record.  As long as the atom is not restored,
taking the constraint out is dismissing it. -/
theorem suspended_leaves : suspended.Reachable ∧ 0 ∈ suspended.topLevel ∧ (suspended.forget 0).Unaware 0 ∧
    (suspended.remove 0).answers [.reset, .solve, .erase 0] = (suspended.dismiss 0).answers [.reset, .solve, .erase 0] ∧
    (suspended.remove 0).answers [.restore 0] ≠ (suspended.dismiss 0).answers [.restore 0] := by
  have hreachable : suspended.Reachable := reachable_performAll _
  have htop : 0 ∈ suspended.topLevel := by decide
  obtain ⟨⟨-, hunaware, -⟩, -, -, hholders, hcalls, -⟩ := remove_leaves hreachable htop
  have hheld : suspended.ErasedAt 0 0 := hholders (by decide) 0 ⟨.pin 0 .wild, by decide, by decide⟩
  exact ⟨hreachable, htop, hunaware, (hcalls [.reset, .solve, .erase 0] (by decide)).1.2 fun _ _ => by simp,
    fun he => (hcalls [.restore 0] (by decide)).1.1 he 0 hheld List.mem_cons_self⟩

/-- Restoring the atom brings the constraint back that was taken out, and solving makes the atom
unchecked for it; and where the negation was taken out, the atom still may not be unchecked. -/
theorem suspended_revives : suspended.Reachable ∧ 0 ∈ suspended.topLevel ∧
    (suspended.remove 0).answers [.restore 0] = [.restored [0]] ∧
    (suspended.forget 0).answers [.restore 0] = [.restored []] ∧
    ((suspended.remove 0).performAll [.restore 0, .solve]).value 0 = .wild ∧
    ((suspended.forget 0).performAll [.restore 0, .solve]).value 0 = .ptr ∧
    barring.Reachable ∧ 1 ∈ barring.topLevel ∧
    ((barring.remove 1).performAll [.add 0, .solve]).value 0 = .ntArr ∧
    ((barring.forget 1).performAll [.add 0, .solve]).value 0 = .wild := by
  refine ⟨reachable_performAll _, ?_, ?_, ?_, ?_, ?_, reachable_performAll _, ?_, ?_, ?_⟩ <;> decide

end Store

end PointerKinds
