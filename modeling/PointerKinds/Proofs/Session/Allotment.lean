/-
What a declaration gives out.

A declaration numbers its atoms in the order of its type: the levels of an object from the
outside in, and then those of what they end in.  So the atoms of a variable that was declared
on its own are the keys given out in between, each once, and whoever files the variable's atoms
files all that the declaration registered.

Every level is born with what its shape demands, and keeps it while the store grows.  What was
declared is thus followed once, as a property of the system of variables: its atoms are below
the next key, and its arrays are what their declarations make them.
-/
import PointerKinds.Proofs.Session.Allocation
import PointerKinds.Proofs.Session.Building
import PointerKinds.Proofs.Session.Mentions
import PointerKinds.Proofs.Store.Persistence

namespace PointerKinds

namespace Store

variable {s t u : Store} {keys keys' : List AtomKey} {d : Demand} {l : List Demand} {key : AtomKey}

/-- One store becomes another, and the keys given out on the way are these. -/
structure GivesOut (s t : Store) (keys : List AtomKey) : Prop where
  packed : t.Packed
  grows : s.Grows t
  nextKey : t.nextKey = s.nextKey + keys.length
  keys : keys = List.range' s.nextKey keys.length

theorem GivesOut.refl (h : s.Packed) : s.GivesOut s [] := ⟨h, .refl, rfl, rfl⟩

theorem GivesOut.trans (h : s.GivesOut t keys) (h' : t.GivesOut u keys') : s.GivesOut u (keys ++ keys') where
  packed := h'.packed
  grows := h.grows.trans h'.grows
  nextKey := by rw [h'.nextKey, h.nextKey, List.length_append, Nat.add_assoc]
  keys := by
    have hkeys' := h'.keys
    rw [h.nextKey] at hkeys'
    rw [List.length_append, ← List.range'_append_1, ← h.keys, ← hkeys']

theorem GivesOut.mem_iff (h : s.GivesOut t keys) : key ∈ keys ↔ s.nextKey ≤ key ∧ key < t.nextKey := by
  rw [h.keys, List.mem_range'_1, h.nextKey]

theorem GivesOut.lt_nextKey (h : s.GivesOut t keys) : ∀ key ∈ keys, key < t.nextKey :=
  fun _ hkey => (h.mem_iff.1 hkey).2

theorem GivesOut.le (h : s.GivesOut t keys) : s.nextKey ≤ t.nextKey := h.nextKey ▸ Nat.le_add_right _ _

theorem Packed.newAtom (h : s.Packed) : s.GivesOut s.newAtom.2 [s.nextKey] where
  packed key := by
    show (s.ensureAtom s.nextKey).atoms.contains key = true ↔ key < max s.nextKey (s.nextKey + 1)
    rw [contains_ensureAtom, h key, Nat.max_eq_right (Nat.le_succ _), Nat.lt_succ_iff_lt_or_eq, or_comm]
  grows := Grows.refl.newAtom
  nextKey := Nat.max_eq_right (Nat.le_succ _)
  keys := rfl

end Store

namespace System

variable {sys : System} {v : Variable}

theorem sameAtoms_imposeShape {s : Store} {key : AtomKey} (h : s.Packed) (hkey : key < s.nextKey)
    (location : Option Location) (shape : LevelShape) : s.SameAtoms (imposeShape s key location shape) := by
  have hpin : ∀ {t : Store} (why : Explanation), s.SameAtoms t →
      s.SameAtoms (t.addEq (.atom key) (.kind .arr) why).2 := fun {t} why ht =>
    ht.trans ((ht.packed h).sameAtoms_impose (d := .pin key .arr why)
      (List.forall_mem_singleton.2 (ht.nextKey.symm ▸ hkey)))
  cases shape with
  | pointer => exact .refl s
  | sizedArray n => exact hpin _ (Store.sameAtoms_modifyAtom s key _)
  | unsizedArray => exact hpin _ (.refl s)

theorem givesOut_newLevel (h : sys.store.Packed) (location : Option Location) (ty : CType) :
    sys.store.GivesOut (sys.newLevel location ty).2.store [(sys.newLevel location ty).1.key] := by
  have hnew := h.newAtom
  have hkey : sys.store.nextKey < sys.store.newAtom.2.nextKey := by
    rw [hnew.nextKey]
    exact Nat.lt_succ_self _
  have hshape := sameAtoms_imposeShape hnew.packed hkey location (shapeOf ty)
  have hsame := hshape.trans (Store.sameAtoms_modifyAtom _ sys.store.nextKey ({ · with soft := preferencesOf ty }))
  exact ⟨hsame.packed hnew.packed, (allocates_newLevel .refl location ty).grows, hsame.nextKey.trans hnew.nextKey, rfl⟩

mutual

/-- The atoms of what is declared are its levels further out, and then what is given out. -/
theorem declareType_givesOut {sys : System} (h : sys.store.Packed) (location : Option Location) (name : String)
    (bare : Bool) (levels : List Level) (hbare : bare = true → levels = []) :
    ∀ ty, ∃ keys, sys.store.GivesOut (declareType sys location name bare levels ty).2.store keys ∧
      (declareType sys location name bare levels ty).1.atoms = levels.map (·.key) ++ keys
  | .pointer pointee checked => by
      simp only [declareType]
      have hlevel := givesOut_newLevel h location (.pointer pointee checked)
      obtain ⟨keys, hkeys, hatoms⟩ := declareType_givesOut hlevel.packed location name false
        (levels ++ [(sys.newLevel location (.pointer pointee checked)).1]) (fun hb => nomatch hb) pointee
      refine ⟨_, hlevel.trans hkeys, ?_⟩
      rw [hatoms, List.map_append, List.append_assoc]
      rfl
  | .array element size => by
      simp only [declareType]
      have hlevel := givesOut_newLevel h location (.array element size)
      obtain ⟨keys, hkeys, hatoms⟩ := declareType_givesOut hlevel.packed location name false
        (levels ++ [(sys.newLevel location (.array element size)).1]) (fun hb => nomatch hb) element
      refine ⟨_, hlevel.trans hkeys, ?_⟩
      rw [hatoms, List.map_append, List.append_assoc]
      rfl
  | .function ret params variadic => by
      simp only [declareType]
      obtain ⟨keys, hkeys, hret⟩ := declareType_givesOut h location (name ++ "$ret") true [] (fun _ => rfl) ret
      obtain ⟨keys', hkeys', hparams⟩ :=
        declareParams_givesOut hkeys.packed location (paramNames [] params.length) params
      rw [List.map_nil, List.nil_append] at hret
      cases bare with
      | true =>
          refine ⟨keys ++ keys', hkeys.trans hkeys', ?_⟩
          rw [hbare rfl, List.map_nil, List.nil_append, ← hret, ← hparams]
          rfl
      | false =>
          refine ⟨keys ++ keys', hkeys.trans hkeys', ?_⟩
          rw [← hret, ← hparams]
          rfl
  | .void | .scalar .. | .record .. => by
      simp only [declareType]
      exact ⟨[], .refl h, (List.append_nil _).symm⟩

theorem declareParams_givesOut {sys : System} (h : sys.store.Packed) (location : Option Location) :
    ∀ names tys, ∃ keys, sys.store.GivesOut (declareParams sys location names tys).2.store keys ∧
      Variable.atomsOfAll (declareParams sys location names tys).1 = keys
  | name :: names, ty :: tys => by
      simp only [declareParams]
      obtain ⟨keys, hkeys, hv⟩ := declareType_givesOut h location name true [] (fun _ => rfl) ty
      obtain ⟨keys', hkeys', hvs⟩ := declareParams_givesOut hkeys.packed location names tys
      refine ⟨keys ++ keys', hkeys.trans hkeys', ?_⟩
      simp only [Variable.atomsOfAll]
      rw [hv, hvs]
      rfl
  | [], _ => by
      simp only [declareParams]
      exact ⟨[], .refl h, rfl⟩
  | _ :: _, [] => by
      simp only [declareParams]
      exact ⟨[], .refl h, rfl⟩

end

/-- A result and parameters, declared one after the other. -/
theorem declareParts_givesOut (h : sys.store.Packed) (location : Option Location) (name : String) (ret : CType)
    (names : List String) (params : List CType) :
    sys.store.GivesOut
      (declareParams (declareType sys location name true [] ret).2 location names params).2.store
      ((declareType sys location name true [] ret).1.atoms ++
        Variable.atomsOfAll (declareParams (declareType sys location name true [] ret).2 location names params).1) := by
  obtain ⟨keys, hkeys, hret⟩ := declareType_givesOut h location name true [] (fun _ => rfl) ret
  obtain ⟨keys', hkeys', hparams⟩ := declareParams_givesOut hkeys.packed location names params
  rw [hret, hparams]
  exact hkeys.trans hkeys'

/-- **The atoms of a function are what its declaration gives out.** -/
theorem declareFunction_givesOut (h : sys.store.Packed) (name key : String) (sig : Signature) (given : List String)
    (hasBody : Bool) (location : Option Location) :
    sys.store.GivesOut (sys.declareFunction name key sig given hasBody location).2.store
      (sys.declareFunction name key sig given hasBody location).1.atoms :=
  declareParts_givesOut h location (name ++ "$ret") sig.ret (paramNames given sig.params.length) sig.params

/-- **The atoms of a variable are what its declaration gives out.** -/
theorem declare_givesOut (h : sys.store.Packed) (name : String) (ty : CType) (location : Option Location) :
    sys.store.GivesOut (sys.declare name ty location).2.store (sys.declare name ty location).1.atoms := by
  obtain ⟨keys, hkeys, hatoms⟩ := declareType_givesOut h location name true [] (fun _ => rfl) ty
  rw [declare, hatoms]
  exact hkeys

/-! ### What a declaration upholds -/

end System

namespace Store

variable {s t : Store} {key : AtomKey} {k : Kind}

theorem filtersKept_post (s : Store) (c : Constraint) : s.FiltersKept (s.post c).2 :=
  (FiltersKept.of_atoms_eq (intern_frame s c).1).trans (filtersKept_add _ _)

/-- Recording takes nothing out of a filter. -/
theorem Grows.filtersKept (h : s.Grows t) : s.FiltersKept t := by
  induction h with
  | refl => exact .refl s
  | newAtom _ ih => exact ih.trans (filtersKept_ensureAtom _ _)
  | bar _ key ih =>
      exact ih.trans (filtersKept_modifyAtom _ key (g := (·.forbid .wild)) fun _ _ hk => SortedSet.mem_insert.2 (.inr hk))
  | prefer _ key soft ih => exact ih.trans (filtersKept_modifyAtom _ key (g := ({ · with soft })) fun _ _ hk => hk)
  | pin _ key k why ih => exact ih.trans (filtersKept_post _ _)
  | join _ a b why ih => exact ih.trans (filtersKept_post _ _)
  | @flow u _ a b ih =>
      have hflow : ∀ (v : Store) (k : Kind), v.FiltersKept (v.addFlow a b k) := fun v k =>
        ((FiltersKept.of_atoms_eq (intern_frame v _).1).trans (.of_atoms_eq (intern_frame _ _).1)).trans
          (filtersKept_post _ _)
      rw [foldl_addFlow]
      exact ih.trans (((hflow u .arr).trans (hflow _ .ntArr)).trans (hflow _ .wild))

theorem forbids_forbid (hkey : s.atoms.contains key = true) : (s.forbid key k).forbids key k = true := by
  obtain ⟨a, ha⟩ := Option.isSome_iff_exists.1 hkey
  refine forbids_iff.2 ⟨a.forbid k, ?_, SortedSet.mem_insert.2 (.inl rfl)⟩
  unfold Store.forbid modifyAtom
  simp only [SortedMap.get?_modify, ha, if_true, Option.map_some]

end Store

/-- A level is what its shape demands: arrays are at least plain arrays, and those of constant
size are barred from being unchecked. -/
structure Level.Upheld (s : Store) (l : Level) : Prop where
  arr : l.shape ≠ .pointer → s.InForce (.pin l.key .arr)
  barred : ∀ n, l.shape = .sizedArray n → s.forbids l.key .wild = true

theorem Level.Upheld.of_grows {s t : Store} {l : Level} (h : l.Upheld s) (hs : s.Fresh) (hgrows : s.Grows t) :
    l.Upheld t where
  arr hl := hgrows.inForce hs (h.arr hl)
  barred n hl := hgrows.filtersKept.forbids (h.barred n hl)

/-- The atoms of a variable and its parts are registered, and its levels are what their shapes
demand. -/
structure Variable.Sound (s : Store) (v : Variable) : Prop where
  atoms : ∀ key ∈ v.atoms, key < s.nextKey
  levels : ∀ o, v.object? = some o → ∀ l ∈ o.levels, l.Upheld s

namespace System

variable {sys : System} {v : Variable} {l : List Demand} {location : Option Location} {levels : List Level}

/-- A system of variables that were declared, and then perhaps related. -/
structure Sound (sys : System) : Prop where
  recorded : sys.store.Recorded
  packed : sys.store.Packed
  declared : ∀ v ∈ sys.declared, v.Sound sys.store

theorem sound_empty : Sound {} where
  recorded := .refl
  packed _ := ⟨fun h => (nomatch h), fun h => absurd h (Nat.not_lt_zero _)⟩
  declared _ hv := absurd hv List.not_mem_nil

/-- A change of the store that only records. -/
theorem Sound.withStore (h : sys.Sound) {s : Store} (hgrows : sys.store.Grows s) (hpacked : s.Packed)
    (hle : sys.store.nextKey ≤ s.nextKey) : Sound { sys with store := s } where
  recorded := h.recorded.trans hgrows
  packed := hpacked
  declared v hv :=
    have hsound := h.declared v hv
    ⟨fun key hkey => Nat.lt_of_lt_of_le (hsound.atoms key hkey) hle,
      fun o ho l hl => (hsound.levels o ho l hl).of_grows h.recorded.fresh hgrows⟩

/-- Demands on registered atoms keep a system sound. -/
theorem Sound.imposeAll {L : Location → Prop} (h : sys.Sound) (hl : Demand.Within (· < sys.store.nextKey) L l) :
    Sound { sys with store := sys.store.imposeAll l } :=
  have hsame := h.packed.sameAtoms_imposeAll hl
  h.withStore (Store.Grows.refl.imposeAll l) (hsame.packed h.packed) hsame.nextKey.ge

theorem Sound.push (h : sys.Sound) {make : VariableId → Variable} (hmake : ∀ id, (make id).Sound sys.store) :
    (sys.push make).2.Sound where
  recorded := h.recorded
  packed := h.packed
  declared v hv := by
    rcases List.mem_append.1 hv with hv | hv
    · exact h.declared v hv
    · rw [List.mem_singleton.1 hv]
      exact hmake _

theorem sound_function {s : Store} {ret : Variable} {params : List Variable} (head : FunctionHead)
    (hret : ∀ key ∈ ret.atoms, key < s.nextKey) (hparams : ∀ key ∈ Variable.atomsOfAll params, key < s.nextKey) :
    (Variable.function head ret params).Sound s where
  atoms := by
    simp only [Variable.atoms, List.forall_mem_append]
    exact ⟨hret, hparams⟩
  levels _ ho := nomatch ho

theorem Sound.newLevel (h : sys.Sound) (location : Option Location) (ty : CType) :
    (sys.newLevel location ty).2.Sound ∧ (sys.newLevel location ty).1.Upheld (sys.newLevel location ty).2.store := by
  have hout := givesOut_newLevel h.packed location ty
  refine ⟨h.withStore hout.grows hout.packed hout.le, ?_⟩
  have hnew : sys.store.newAtom.2.Recorded := h.recorded.newAtom
  have hreg : sys.store.newAtom.2.atoms.contains sys.store.nextKey = true := Store.contains_ensureAtom.2 (.inl rfl)
  -- The preferences come last and touch neither.
  have hprefer : ∀ {s : Store} {shape : LevelShape}, s.Recorded → Level.Upheld s ⟨sys.store.nextKey, shape⟩ →
      Level.Upheld (s.setSoft sys.store.nextKey (preferencesOf ty)) ⟨sys.store.nextKey, shape⟩ :=
    fun hs hl => hl.of_grows hs.fresh (Store.Grows.refl.prefer _ _)
  show Level.Upheld ((imposeShape _ _ location (shapeOf ty)).setSoft _ _) ⟨_, shapeOf ty⟩
  cases shapeOf ty with
  | pointer => exact hprefer hnew ⟨fun hne => absurd rfl hne, fun _ he => nomatch he⟩
  | sizedArray n =>
      have hbarred : Store.Recorded (sys.store.newAtom.2.forbid sys.store.nextKey .wild) := hnew.bar _
      refine hprefer (hbarred.pin _ .arr _) ⟨fun _ => ?_, fun _ _ => ?_⟩
      · exact ((hbarred.fresh.imposes_pin _ .arr _).inForce _).2 (.inr rfl)
      · exact (Store.Grows.refl.pin _ .arr _).filtersKept.forbids (Store.forbids_forbid hreg)
  | unsizedArray =>
      refine hprefer (hnew.pin _ .arr _) ⟨fun _ => ?_, fun _ he => nomatch he⟩
      exact ((hnew.fresh.imposes_pin _ .arr _).inForce _).2 (.inr rfl)

/-- What was already allocated for the variable that is being declared. -/
structure Outer (s : Store) (levels : List Level) : Prop where
  upheld : ∀ l ∈ levels, l.Upheld s
  atoms : ∀ key ∈ levels.map (·.key), key < s.nextKey

theorem Outer.of_givesOut {s t : Store} {keys : List AtomKey} (h : Outer s levels) (hs : s.Recorded)
    (hout : s.GivesOut t keys) : Outer t levels where
  upheld l hl := (h.upheld l hl).of_grows hs.fresh hout.grows
  atoms key hkey := Nat.lt_of_lt_of_le (h.atoms key hkey) hout.le

theorem outer_nil (s : Store) : Outer s [] :=
  ⟨fun _ hl => absurd hl List.not_mem_nil, fun _ hk => absurd hk List.not_mem_nil⟩

/-- One more level, allocated within those already there. -/
theorem Outer.newLevel (h : Outer sys.store levels) (hsys : sys.Sound) (location : Option Location) (ty : CType) :
    Outer (sys.newLevel location ty).2.store (levels ++ [(sys.newLevel location ty).1]) := by
  have hout := givesOut_newLevel hsys.packed location ty
  obtain ⟨hupheld, hatoms⟩ := h.of_givesOut hsys.recorded hout
  have hkey := hout.lt_nextKey _ (List.mem_singleton.2 rfl)
  refine ⟨List.forall_mem_append.2 ⟨hupheld, List.forall_mem_singleton.2 (hsys.newLevel location ty).2⟩, ?_⟩
  rw [List.map_append]
  exact List.forall_mem_append.2 ⟨hatoms, List.forall_mem_singleton.2 hkey⟩

mutual

theorem Sound.declareType {sys : System} (h : sys.Sound) (location : Option Location) (name : String) (bare : Bool)
    (levels : List Level) (hlevels : Outer sys.store levels) :
    ∀ ty, (declareType sys location name bare levels ty).2.Sound
  | .pointer pointee checked => by
      simp only [System.declareType]
      exact (h.newLevel location _).1.declareType location name false _ (hlevels.newLevel h location _)
        pointee
  | .array element size => by
      simp only [System.declareType]
      exact (h.newLevel location _).1.declareType location name false _ (hlevels.newLevel h location _)
        element
  | .function ret params variadic => by
      simp only [System.declareType]
      have hsound := h.declareType location (name ++ "$ret") true [] (outer_nil _) ret
      have hsound' := hsound.declareParams location (paramNames [] params.length) params
      have hout := declareParts_givesOut h.packed location (name ++ "$ret") ret (paramNames [] params.length) params
      have hparts := List.forall_mem_append.1 hout.lt_nextKey
      have htarget := hsound'.push fun id =>
        sound_function ⟨id, name, "", paramNames [] params.length, false, variadic⟩ hparts.1 hparts.2
      split
      · exact htarget
      · obtain ⟨hupheld, hatoms⟩ := hlevels.of_givesOut h.recorded hout
        refine htarget.push fun id => ⟨?_, fun o ho => ?_⟩
        · simp only [Variable.atoms, System.push, List.forall_mem_append]
          exact ⟨hatoms, hparts⟩
        · rw [← Option.some.inj ho]
          exact hupheld
  | .void | .scalar .. | .record .. => by
      simp only [System.declareType]
      refine h.push fun id => ⟨hlevels.atoms, fun o ho => ?_⟩
      rw [← Option.some.inj ho]
      exact hlevels.upheld

theorem Sound.declareParams {sys : System} (h : sys.Sound) (location : Option Location) :
    ∀ names tys, (declareParams sys location names tys).2.Sound
  | name :: names, ty :: tys => by
      simp only [System.declareParams]
      exact (h.declareType location name true [] (outer_nil _) ty).declareParams location names tys
  | [], _ => by
      simp only [System.declareParams]
      exact h
  | _ :: _, [] => by
      simp only [System.declareParams]
      exact h

end

theorem Sound.declare (h : sys.Sound) (name : String) (ty : CType) (location : Option Location) :
    (sys.declare name ty location).2.Sound :=
  h.declareType location name true [] (outer_nil _) ty

theorem Sound.declareFunction (h : sys.Sound) (name key : String) (sig : Signature) (given : List String)
    (hasBody : Bool) (location : Option Location) :
    (sys.declareFunction name key sig given hasBody location).2.Sound := by
  have hsound := h.declareType location (name ++ "$ret") true [] (outer_nil _) sig.ret
  have hout := declareParts_givesOut h.packed location (name ++ "$ret") sig.ret
    (paramNames given sig.params.length) sig.params
  have hparts := List.forall_mem_append.1 hout.lt_nextKey
  exact (hsound.declareParams location _ sig.params).push fun _ => sound_function _ hparts.1 hparts.2

end System

end PointerKinds
