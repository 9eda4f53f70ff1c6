/-
The tables of a store tally.

Besides what is in force, the store keeps the same fact in several places: an atom is listed
with its record and with its kind, its key is counted by the next key to be given out, and
that it is unchecked shows both in its kind and in the constraint remembered for it.  Every
operation changes all of these together.  Only three touch the kinds: registering an atom,
putting atoms back to checked pointers, and taking over what a run found out.  A run moves
registered atoms only, and remembers its constraint for an atom exactly when it makes the atom
unchecked; so the tables tally after every round, whatever its seeds.

Restoring is the other way round from erasing: it is told an atom, not a constraint, and goes
by what the atom remembers.  That this is what the store as a whole calls erased is the
agreement of `Index`.
-/
import PointerKinds.Proofs.Solver.Edits
import PointerKinds.Proofs.Solver.Loops
import PointerKinds.Proofs.Store.Operations

namespace PointerKinds

namespace Run

variable {s : Store} {run : Run}

/-! ### What a run changes -/

/-- The atoms with a kind are the registered ones. -/
def Listed (s : Store) (run : Run) : Prop :=
  ∀ key, run.env.contains key = true ↔ s.atoms.contains key = true

theorem contains_assign {key key' : AtomKey} {k : Kind} {cause : Option ConstraintId} :
    (run.assign key k cause).env.contains key' = true ↔ key' = key ∨ run.env.contains key' = true :=
  SortedMap.contains_insert ..

/-- An atom that moves has a kind already. -/
theorem Listed.assign (h : Listed s run) {key : AtomKey} (hreg : s.atoms.contains key = true) (k : Kind)
    (cause : Option ConstraintId) : Listed s (run.assign key k cause) := by
  intro key'
  rw [contains_assign, h]
  constructor
  · rintro (rfl | hk)
    · exact hreg
    · exact hk
  · exact .inr

theorem lasting_listed (s : Store) : Lasting s (Listed s) where
  visit _ h := h
  commit _ _ h := h
  raise run id key k h := by
    rcases raise_cases s id run key k with ⟨e, -⟩ | ⟨a, -, -, -, e⟩ | ⟨a, g, run', ha, -, -, hr, e⟩
    · rwa [e]
    · rw [e]
      exact h
    · have hreg : s.atoms.contains key = true := by
        unfold SortedMap.contains
        rw [ha]
        rfl
      have hrun : Listed s run' := by rcases hr with ⟨-, rfl⟩ | ⟨-, rfl⟩ <;> exact h
      rw [e]
      exact hrun.assign hreg g (some id)

theorem lasting_caused (s : Store) : Lasting s Caused where
  visit _ h := h
  commit _ _ h := h
  raise _ id x k h := h.raise s id x k

/-- An atom is promoted only if it has a kind. -/
theorem Listed.promote (h : Listed s run) : Listed s (run.promote (run.promotions s)) := by
  have hassign : ∀ (keys : List AtomKey) (r : Run), (∀ key ∈ keys, s.atoms.contains key = true) → Listed s r →
      Listed s (keys.foldl (fun r key => r.assign key .ntArr none) r) := by
    intro keys
    induction keys with
    | nil => exact fun _ _ hr => hr
    | cons key rest ih =>
        intro r hreg hr
        exact ih _ (fun x hx => hreg x (List.mem_cons_of_mem key hx))
          (hr.assign (hreg key List.mem_cons_self) .ntArr none)
  refine hassign _ run (fun key hkey => ?_) h
  have hkeys : key ∈ run.env.keys := (List.mem_filter.1 (List.mem_filter.1 hkey).1).1
  exact (h key).1 ((SortedMap.mem_keys_iff ..).1 hkeys)

end Run

namespace Store

variable {s t : Store}

/-! ### The tables -/

/-- What is kept of the atoms in several tables is the same in all. -/
structure Tallied (s : Store) : Prop where
  /-- The atoms with a kind are the registered ones. -/
  listed : ∀ key, s.env.contains key = true ↔ s.atoms.contains key = true
  /-- The next key is above those in use. -/
  counted : ∀ key, s.atoms.contains key = true → key < s.nextKey
  /-- Exactly the unchecked atoms have a constraint remembered. -/
  caused : ∀ key, (∃ id, s.forcedBy.get? key = some id) ↔ s.value key = .wild

theorem tallied_empty : Tallied {} where
  listed _ := Iff.rfl
  counted _ hkey := nomatch hkey
  caused _ := ⟨fun ⟨_, hid⟩ => (nomatch hid), fun hwild => nomatch hwild⟩

/-- Only the kinds, the constraints remembered and the keys matter. -/
theorem Tallied.congr (h : s.Tallied) (henv : t.env = s.env) (hforced : t.forcedBy = s.forcedBy)
    (hnext : t.nextKey = s.nextKey) (hatoms : ∀ key, t.atoms.contains key = s.atoms.contains key) :
    t.Tallied where
  listed key := by rw [henv, hatoms, h.listed]
  counted key hkey := by
    rw [hatoms] at hkey
    exact hnext ▸ h.counted key hkey
  caused key := by
    unfold value
    rw [hforced, henv]
    exact h.caused key

theorem Tallied.foldl {α : Type} {step : Store → α → Store} (hstep : ∀ t a, Tallied t → (step t a).Tallied)
    (l : List α) (h : s.Tallied) : (l.foldl step s).Tallied := by
  induction l generalizing s with
  | nil => exact h
  | cons a rest ih => exact ih (hstep s a h)

theorem Tallied.ensureAtom (h : s.Tallied) (key : AtomKey) : (s.ensureAtom key).Tallied where
  listed key' := by
    show (s.env.insertNew key .ptr).contains key' = true ↔ (s.atoms.insertNew key {}).contains key' = true
    rw [SortedMap.contains_insertNew, SortedMap.contains_insertNew, h.listed]
  counted key' hkey' := by
    show key' < max s.nextKey (key + 1)
    rcases contains_ensureAtom.1 hkey' with rfl | hkey'
    · exact lt_of_lt_of_le (Nat.lt_succ_self _) (Nat.le_max_right _ _)
    · exact lt_of_lt_of_le (h.counted key' hkey') (Nat.le_max_left _ _)
  caused key' := by
    have hvalue : (s.ensureAtom key).value key' = s.value key' := by
      show (s.env.insertNew key .ptr).getD key' .ptr = s.env.getD key' .ptr
      unfold SortedMap.getD
      rw [SortedMap.get?_insertNew]
      split
      · rename_i hnew
        rw [hnew.1, hnew.2]
        rfl
      · rfl
    rw [hvalue]
    exact h.caused key'

theorem Tallied.modifyAtom (h : s.Tallied) (key : AtomKey) (g : Atom → Atom) : (s.modifyAtom key g).Tallied :=
  h.congr rfl rfl rfl fun _ => contains_modifyAtom

theorem Tallied.modifyAtomsOf (h : s.Tallied) (id : ConstraintId) (g : Atom → Atom) :
    (s.modifyAtomsOf id g).Tallied := by
  unfold Store.modifyAtomsOf
  split
  · exact h.foldl (fun t key ht => ht.modifyAtom key g) _
  · exact h

theorem Tallied.intern (h : s.Tallied) (c : Constraint) : (s.intern c).2.Tallied := by
  unfold Store.intern
  split <;> exact h.congr rfl rfl rfl fun _ => rfl

theorem Tallied.add (h : s.Tallied) (id : ConstraintId) : (s.add id).Tallied := by
  have hfilter : ∀ f, (s.imposeFilter f).Tallied := by
    intro f
    unfold Store.imposeFilter
    split
    · split
      · exact (h.ensureAtom _).modifyAtom _ _
      · exact h
    · exact h
  unfold Store.add
  split
  · split
    · rename_i f _
      have hattached : (f.atoms.toList.foldl (attach id) (s.imposeFilter f)).Tallied :=
        (hfilter f).foldl (fun t key ht => (ht.ensureAtom key).modifyAtom key _) _
      exact hattached.congr rfl rfl rfl fun _ => rfl
    · exact h
  · exact h

/-- Which constraints are in force does not matter. -/
theorem Tallied.remark (h : s.Tallied) (topLevel erased : SortedSet ConstraintId) :
    Tallied { s with topLevel, erased } :=
  h.congr rfl rfl rfl fun _ => rfl

theorem Tallied.remove (h : s.Tallied) (id : ConstraintId) : (s.remove id).Tallied := by
  unfold Store.remove
  split
  · exact (h.remark (s.topLevel.erase id) (s.erased.erase id)).modifyAtomsOf id _
  · exact h

theorem Tallied.erase (h : s.Tallied) (id : ConstraintId) : (s.erase id).Tallied := by
  unfold Store.erase
  split
  · exact (h.remark s.topLevel (s.erased.insert id)).modifyAtomsOf id _
  · exact h

theorem Tallied.restore (h : s.Tallied) (key : AtomKey) : (s.restore key).Tallied := by
  refine Tallied.foldl (fun t id ht => ?_) _ (h.modifyAtom key _)
  exact (ht.remark t.topLevel (t.erased.erase id)).modifyAtomsOf id _

theorem Tallied.reset (h : s.Tallied) : s.reset.Tallied where
  listed key := by
    rw [show s.reset.atoms = s.atoms from rfl, ← h.listed]
    show (s.env.mapValues fun _ _ => Kind.ptr).contains key = true ↔ _
    unfold SortedMap.contains
    rw [SortedMap.get?_mapValues, Option.isSome_map]
  counted := h.counted
  caused key := by
    rw [value_reset]
    exact ⟨fun ⟨_, hid⟩ => (nomatch hid), fun hwild => nomatch hwild⟩

/-- Putting registered atoms back to checked pointers, with nothing remembered for them. -/
theorem Tallied.lower (h : s.Tallied) {keys : List AtomKey} (hkeys : ∀ key ∈ keys, s.atoms.contains key = true) :
    (s.lower keys).Tallied where
  listed key := by
    have hfold : ∀ (keys : List AtomKey) (env : SortedMap AtomKey Kind),
        (keys.foldl (fun env key => env.insert key .ptr) env).contains key = true ↔
          key ∈ keys ∨ env.contains key = true := by
      intro keys
      induction keys with
      | nil => simp
      | cons x rest ih =>
          intro env
          rw [List.foldl_cons, ih, SortedMap.contains_insert, List.mem_cons]
          tauto
    show (keys.foldl (fun env key => env.insert key .ptr) s.env).contains key = true ↔ s.atoms.contains key = true
    rw [hfold, h.listed]
    exact ⟨fun hkey => hkey.elim (hkeys key) id, .inr⟩
  counted := h.counted
  caused key := by
    rw [forcedBy_lower, value_lower]
    by_cases hkey : key ∈ keys
    · simp [hkey]
    · simpa [hkey] using h.caused key

/-- The tables tally after solving, whatever atoms are visited first. -/
theorem Tallied.commit_solution (h : s.Tallied) (seeds : List AtomKey) :
    (s.commit (s.solution seeds).run).Tallied := by
  rw [solution_eq_round]
  exact
    { listed := Run.round_lasts (Run.lasting_listed s) (fun _ hr => hr.promote) seeds _ h.listed
      counted := h.counted
      caused := Run.round_lasts (Run.lasting_caused s) (fun _ hr => hr.promote) seeds _ h.caused }

theorem Tallied.makeNonWild (h : s.Tallied) (key : AtomKey) (region : List AtomKey) :
    (s.makeNonWild key region).2.Tallied := by
  by_cases hwild : s.value key = .wild
  · have herased : ((s.wildForcing key).foldl Store.erase s).Tallied := h.foldl (fun t id ht => ht.erase id) _
    rw [makeNonWild_of_wild hwild region]
    refine Tallied.commit_solution (herased.lower fun x hx => ?_) _
    unfold regionAround at hx
    rw [← SortedSet.mem_def, SortedSet.mem_ofList, List.mem_cons, List.mem_filter] at hx
    rcases hx with rfl | ⟨-, hreg⟩
    · have henv : ((s.wildForcing x).foldl Store.erase s).env = s.env := (eraseAll_frame s _).2.2.1
      exact (herased.listed x).1 (henv ▸ contains_env_of_wild hwild)
    · exact hreg
  · rw [makeNonWild_of_ne hwild region]
    exact h

theorem Tallied.perform (h : s.Tallied) (c : Operation) : (s.perform c).2.Tallied := by
  cases c with
  | register key => exact h.ensureAtom key
  | forbid key k => exact h.modifyAtom key _
  | prefer key soft => exact h.modifyAtom key _
  | createEq a b why => exact h.intern _
  | createNot body =>
      rcases perform_createNot s body with he | ⟨c, he⟩ <;> rw [he]
      · exact h
      · exact h.intern c
  | createImplies premise conclusion =>
      rcases perform_createImplies s premise conclusion with he | ⟨c, he⟩ <;> rw [he]
      · exact h
      · exact h.intern c
  | add id => exact h.add id
  | remove id => exact h.remove id
  | erase id => exact h.erase id
  | restore key => exact h.restore key
  | reset => exact h.reset
  | solve => exact h.commit_solution _
  | makeNonWild key region => exact h.makeNonWild key region
  | eraseReason reason => exact (h.foldl (fun t id ht => ht.erase id) _).reset.commit_solution _
  | startTrace => exact h.congr rfl rfl rfl fun _ => rfl
  | takeTrace => exact h.congr rfl rfl rfl fun _ => rfl

/-- The tables of every store tally. -/
theorem Reachable.tallied (h : s.Reachable) : s.Tallied := by
  induction h with
  | empty => exact tallied_empty
  | perform _ c ih => exact ih.perform c

theorem Built.tallied (h : s.Built) : s.Tallied := h.reachable.tallied

/-- The next key is a new one. -/
theorem Tallied.contains_newAtom (h : s.Tallied) : s.atoms.contains s.newAtom.1 = false :=
  Bool.eq_false_iff.2 fun hkey => absurd (h.counted _ hkey) (lt_irrefl _)

/-! ### Restoring -/

variable {key : AtomKey} {id : ConstraintId}

theorem pairwise_restorable (s : Store) (key : AtomKey) : (s.restorable key).Pairwise (· < ·) := by
  unfold restorable
  split
  · rename_i a _
    exact a.erased.pairwise_toList
  · exact .nil

/-- What is to be restored from an atom is what is erased and mentions it. -/
theorem Indexed.mem_restorable_iff (h : s.Indexed) :
    id ∈ s.restorable key ↔ id ∈ s.erased ∧ s.Mentions id key := by
  rw [mem_restorable, h.erased]

theorem Indexed.isActive_restore (h : s.Indexed) :
    (s.restore key).isActive id = true ↔ s.isActive id = true ∨ id ∈ s.restorable key := by
  obtain ⟨-, htop, herased, -⟩ := restore_frame s key
  rw [isActive_iff, isActive_iff, htop, herased]
  constructor
  · rintro ⟨hid, hout⟩
    by_cases he : id ∈ s.erased
    · exact .inr (by_contra fun hr => hout ⟨he, hr⟩)
    · exact .inl ⟨hid, he⟩
  · rintro (⟨hid, hout⟩ | hr)
    · exact ⟨hid, fun he => hout he.1⟩
    · exact ⟨h.suspended id (h.mem_restorable_iff.1 hr).1, fun he => he.2 hr⟩

/-- **The records of a store agree, and restoring goes by them.**  After any operations, only
top-level constraints are erased, what they mention is registered, every atom has on record
exactly the constraints in force and the erased ones that mention it, the tables of atoms
tally, and the next key is a new one.  What can be restored from an atom is, in ascending order,
exactly the erased constraints that mention it; restoring puts these and no others back in
force, for every atom that they mention. -/
theorem records_agree (hs : s.Built) :
    s.Indexed ∧ s.Tallied ∧ s.atoms.contains s.newAtom.1 = false ∧ ∀ key,
      (s.restorable key).Pairwise (· < ·) ∧
      (∀ id, id ∈ s.restorable key ↔ id ∈ s.erased ∧ s.Mentions id key) ∧
      (∀ id, (s.restore key).isActive id = true ↔ s.isActive id = true ∨ id ∈ s.restorable key) ∧
      (∀ id, id ∈ (s.restore key).erased ↔ id ∈ s.erased ∧ id ∉ s.restorable key) ∧
      ∀ other id,
        ((s.restore key).ActiveAt other id ↔
          s.ActiveAt other id ∨ id ∈ s.restorable key ∧ s.Mentions id other) ∧
        ((s.restore key).ErasedAt other id ↔ s.ErasedAt other id ∧ id ∉ s.restorable key) := by
  have hindexed := hs.indexed
  refine ⟨hindexed, hs.tallied, hs.tallied.contains_newAtom, fun key => ?_⟩
  obtain ⟨harena, -, herased, -⟩ := restore_frame s key
  have hmentions : ∀ id other, (s.restore key).Mentions id other ↔ s.Mentions id other := fun id other => by
    simp only [Mentions, formula?, constraint?, harena]
  refine ⟨pairwise_restorable s key, fun _ => hindexed.mem_restorable_iff, fun _ => hindexed.isActive_restore,
    herased, fun other id => ⟨?_, ?_⟩⟩
  · rw [(hindexed.restore key).active, hindexed.isActive_restore, hmentions, or_and_right, hindexed.active]
  · rw [(hindexed.restore key).erased, herased, hmentions, hindexed.erased, and_right_comm]

/-! ### A concrete store -/

/-- An atom is unchecked and was joined to another; both the join and the same join under a guard
are erased after solving. -/
def parted : Store :=
  let s := (({} : Store).addEq (.atom 0) (.kind .wild)).2
  let s := (s.addEq (.atom 0) (.atom 1)).2
  let s := ((s.createImplies? 0 1).getD (0, s)).2
  (((s.add 2).solve.2).erase 1).erase 2

theorem parted_built : parted.Built :=
  ((((((Built.empty.addEq _ _ _).addEq _ _ _).getD_createImplies? 0 1).add 2).solve).erase 1).erase 2

/-- Both come back from either atom, and both atoms are unchecked for a remembered constraint. -/
theorem parted_records : parted.Built ∧ parted.restorable 1 = [1, 2] ∧
    (parted.restore 1).ActiveAt 0 2 ∧ ¬ (parted.restore 1).ErasedAt 0 2 ∧
    (∃ id, parted.forcedBy.get? 1 = some id) ∧ parted.newAtom.1 = 2 ∧ parted.atoms.contains 2 = false := by
  obtain ⟨-, htallied, hnew, hrestore⟩ := records_agree parted_built
  obtain ⟨-, -, -, -, hrecords⟩ := hrestore 1
  have hmentions : parted.Mentions 2 0 := ⟨.implies (.pin 0 .wild) (.join 0 1), by decide, by decide⟩
  exact ⟨parted_built, by decide, (hrecords 0 2).1.2 (.inr ⟨by decide, hmentions⟩),
    fun h => ((hrecords 0 2).2.1 h).2 (by decide), (htallied.caused 1).2 (by decide), by decide, hnew⟩

end Store

end PointerKinds
