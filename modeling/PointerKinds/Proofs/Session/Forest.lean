/-
Every atom has one level.

A declaration gives its atoms out one after the other, and every one of them to a level of a
variable that it files.  Nothing else registers atoms, and nothing files variables in any other
way, so the atoms of a session are the levels of its variables, each once.  What this means for
the atoms of a variable and all its parts follows from how variables are nested: none of them is
listed twice, and variables that are not nested in one another share none.

That no other change registers an atom is not proved again here.  In a program every registered
atom has a place, and changes that declare nothing leave the places alone.
-/
import Mathlib.Data.List.Flatten
import PointerKinds.Proofs.Session.Books
import PointerKinds.Proofs.Session.Mirror
import PointerKinds.Proofs.Variable.Layout

namespace PointerKinds

namespace System

open Variable (ownAtoms Unnested)

variable {sys sys' : System} {v w : Variable} {o : Object} {id : VariableId} {i : Nat} {key : AtomKey}

/-! ### What a forest is -/

/-- A level of a variable has an atom. -/
def HasLevel (sys : System) (id : VariableId) (i : Nat) (key : AtomKey) : Prop :=
  ∃ v o l, sys.find? id = some v ∧ v.object? = some o ∧ o.levels[i]? = some l ∧ l.key = key

/-- The variables of a system, with their levels, and the atoms of its store make a forest. -/
structure Forest (sys : System) : Prop where
  /-- Variables are filed under their numbers. -/
  filed : ∀ id v, sys.find? id = some v → v.id = id
  /-- The parts of a variable were filed before it was. -/
  smaller : ∀ v ∈ sys.declared, ∀ w ∈ v.directParts, w.id < v.id ∧ sys.find? w.id = some w
  /-- An object was declared with a type, and has its levels. -/
  typed : ∀ v ∈ sys.declared, ∀ o, v.object? = some o → (∃ bare ty, sys.DeclaredAs bare ty v) ∧
    ∀ bare ty, sys.DeclaredAs bare ty v →
      o.atoms.length = ty.depth ∧ o.shapes.length = ty.depth ∧ o.shapes = ty.levelShapes
  /-- Every registered atom is that of one level of one variable, -/
  placed : ∀ key, sys.store.atoms.contains key = true →
    ∃! level : VariableId × Nat, sys.HasLevel level.1 level.2 key
  /-- and every level has a registered one. -/
  registered : ∀ id i key, sys.HasLevel id i key → sys.store.atoms.contains key = true
  /-- A variable and its parts have no atom twice. -/
  nodup : ∀ v ∈ sys.declared, v.atoms.Nodup
  /-- Variables that are not nested in one another have no atom in common. -/
  disjoint : ∀ v ∈ sys.declared, ∀ w ∈ sys.declared, v.Unnested w → v.atoms.Disjoint w.atoms

/-! ### Atoms are allotted to levels -/

/-- The levels of the variables have the atoms that were given out, each once. -/
structure Allotted (sys : System) : Prop where
  packed : sys.store.Packed
  atoms : (sys.declared.flatMap ownAtoms).Perm (List.range sys.store.nextKey)

/-- A declaration allots what it gives out. -/
theorem Allotted.appends (h : sys.Allotted) (happends : sys.Appends sys' v.parts)
    (hout : sys.store.GivesOut sys'.store v.atoms) : sys'.Allotted where
  packed := hout.packed
  atoms := by
    have hparts : (v.parts.flatMap ownAtoms).Perm (List.range' sys.store.nextKey v.atoms.length) :=
      hout.keys ▸ v.perm_atoms
    rw [happends.declared, List.flatMap_append, hout.nextKey, List.range_eq_range', ← List.range'_append_1,
      Nat.zero_add, ← List.range_eq_range']
    exact h.atoms.append hparts

/-- **Declarations allot atoms to levels**, if no other change registers any. -/
theorem MadeBy.allotted (h : MadeBy Store.SameAtoms sys) : sys.Allotted := by
  induction h with
  | empty => exact ⟨sound_empty.packed, .refl _⟩
  | @store sys _ s hs ih => exact ⟨hs.packed ih.packed, hs.nextKey ▸ ih.atoms⟩
  | declareType _ location name bare ty ih =>
      obtain ⟨keys, hout, hatoms⟩ := declareType_givesOut ih.packed location name bare [] (fun _ => rfl) ty
      rw [List.map_nil, List.nil_append] at hatoms
      exact ih.appends (declareType_appends _ location name bare [] ty) (hatoms ▸ hout)
  | declareFunction _ name key sig given hasBody location ih =>
      exact ih.appends (declareFunction_appends _ name key sig given hasBody location)
        (declareFunction_givesOut ih.packed name key sig given hasBody location)

theorem Allotted.nodup (h : sys.Allotted) : (sys.declared.flatMap ownAtoms).Nodup :=
  h.atoms.nodup_iff.2 List.nodup_range

/-- The registered atoms are those of the levels. -/
theorem Allotted.contains_iff (h : sys.Allotted) :
    sys.store.atoms.contains key = true ↔ ∃ v ∈ sys.declared, key ∈ v.ownAtoms := by
  rw [h.packed key, ← List.mem_range, ← h.atoms.mem_iff, List.mem_flatMap]

/-- No two variables have an atom of their own in common. -/
theorem Allotted.eq_of_mem (h : sys.Allotted) (hv : v ∈ sys.declared) (hw : w ∈ sys.declared) (hkey : key ∈ v.ownAtoms)
    (hkey' : key ∈ w.ownAtoms) : v = w :=
  eq_of_nodup_flatMap h.nodup hv hw hkey hkey'

theorem hasLevel_iff : sys.HasLevel id i key ↔ ∃ v, sys.find? id = some v ∧ v.ownAtoms[i]? = some key := by
  have hlevel : ∀ o : Object, o.atoms[i]? = some key ↔ ∃ l, o.levels[i]? = some l ∧ l.key = key := fun o => by
    rw [Object.atoms, List.getElem?_map, Option.map_eq_some_iff]
  constructor
  · rintro ⟨v, o, l, hv, ho, hl⟩
    refine ⟨v, hv, ?_⟩
    rw [ownAtoms, ho]
    exact (hlevel o).2 ⟨l, hl⟩
  · rintro ⟨v, hv, hkey⟩
    unfold ownAtoms at hkey
    cases ho : v.object? with
    | none =>
        rw [ho] at hkey
        exact absurd hkey (by simp)
    | some o =>
        rw [ho] at hkey
        obtain ⟨l, hl⟩ := (hlevel o).1 hkey
        exact ⟨v, o, l, hv, ho, hl⟩

/-- A registered atom is that of one level of one variable. -/
theorem Allotted.existsUnique_level (h : sys.Allotted) (hsys : sys.IsForest)
    (hkey : sys.store.atoms.contains key = true) :
    ∃! level : VariableId × Nat, sys.HasLevel level.1 level.2 key := by
  obtain ⟨v, hv, hmem⟩ := h.contains_iff.1 hkey
  obtain ⟨i, hi⟩ := List.mem_iff_getElem?.1 hmem
  refine ⟨(v.id, i), hasLevel_iff.2 ⟨v, hsys.find?_id hv, hi⟩, ?_⟩
  rintro ⟨id, j⟩ hlevel
  obtain ⟨w, hw, hj⟩ := hasLevel_iff.1 hlevel
  have hwmem := List.mem_of_getElem? hw
  obtain rfl := h.eq_of_mem hv hwmem hmem (List.mem_of_getElem? hj)
  have hown : v.ownAtoms.Nodup := (List.nodup_flatMap.1 h.nodup).1 v hv
  have hij := (List.getElem?_inj (List.getElem?_eq_some_iff.1 hi).1 hown).1 (hi.trans hj.symm)
  have hid := (List.getElem?_inj (List.getElem?_eq_some_iff.1 hw).1 hsys.nodup).1 (hw.trans (hsys.find?_id hv).symm)
  exact Prod.ext hid hij.symm

/-- **Where only declarations register atoms, systems are forests.** -/
theorem MadeBy.forest (h : MadeBy Store.SameAtoms sys) : sys.Forest := by
  have hsys := h.constructed.isForest
  have hallotted := h.allotted
  have hsub : ∀ {v w : Variable}, v ∈ sys.declared → w ∈ v.parts → w ∈ sys.declared :=
    fun hv hw => (hsys.isInfix_parts hv).subset hw
  refine ⟨fun id v hv => ?_, fun v hv w hw => ?_, fun v hv o ho => ⟨h.constructed.typesObjects v hv o ho, ?_⟩,
    fun key hkey => hallotted.existsUnique_level hsys hkey, fun id i key hlevel => ?_, fun v hv => ?_,
    fun v hv w hw hunnested => ?_⟩
  · have hfound := hsys.find?_id (List.mem_of_getElem? hv)
    exact (List.getElem?_inj (List.getElem?_eq_some_iff.1 hfound).1 hsys.nodup).1 (hfound.trans hv.symm)
  · exact ⟨hsys.id_lt hv hw, hsys.find?_id (hsub hv (Variable.mem_parts_of_mem_directParts hw))⟩
  · intro bare ty hty
    have hshapes := hty.laidOut.shapes ho
    rw [List.nil_append] at hshapes
    have hlength : o.shapes.length = ty.depth := hshapes ▸ ty.length_levelShapes
    exact ⟨by simpa only [Object.atoms, Object.shapes, List.length_map] using hlength, hlength, hshapes⟩
  · obtain ⟨v, hv, hkey⟩ := hasLevel_iff.1 hlevel
    exact hallotted.contains_iff.2 ⟨v, List.mem_of_getElem? hv, List.mem_of_getElem? hkey⟩
  · exact v.perm_atoms.nodup_iff.1 (((hsys.isInfix_parts hv).sublist.flatMap ownAtoms).nodup hallotted.nodup)
  · intro key hkey hkey'
    obtain ⟨x, hx, hkey⟩ := Variable.mem_atoms_iff.1 hkey
    obtain ⟨y, hy, hkey'⟩ := Variable.mem_atoms_iff.1 hkey'
    obtain rfl := hallotted.eq_of_mem (hsub hv hx) (hsub hw hy) hkey hkey'
    exact (hsys.nested_of_common_part hv hw hx hy).elim hunnested.1 hunnested.2

end System

/-! ### Along a walk -/

namespace Program

open Store (SameAtoms)

variable {p q : Program} {f : Variable} {options : Options}

/-- Changes that keep the places of atoms keep the atoms. -/
theorem Placed.sameAtoms (h : p.Placed) (hq : q.Placed) (hplaces : p.SamePlaces q) : p.store.SameAtoms q.store := by
  have hlt : ∀ key, key < q.store.nextKey ↔ key < p.store.nextKey := fun key => by
    rw [← hq.located key, ← h.located key, hplaces.atomLocations]
  refine ⟨Nat.le_antisymm (Nat.not_lt.1 fun hn => ?_) (Nat.not_lt.1 fun hn => ?_), fun key => ?_⟩
  · exact Nat.lt_irrefl _ ((hlt _).1 hn)
  · exact Nat.lt_irrefl _ ((hlt _).2 hn)
  · exact (hq.sound.packed key).trans ((hlt key).trans (h.sound.packed key).symm)

/-- The variables of a program come from declarations, and so do its atoms. -/
def Planted (p : Program) : Prop := p.Placed ∧ System.MadeBy SameAtoms p.system

theorem Planted.of_samePlaces (h : p.Planted) (hq : q.Placed) (hplaces : p.SamePlaces q) : q.Planted := by
  have hsystem : q.system = ⟨q.store, p.system.declared⟩ := hplaces.filed ▸ rfl
  exact ⟨hq, hsystem ▸ h.2.store (h.1.sameAtoms hq hplaces)⟩

theorem planted_start (options : Options) : Planted { options } := ⟨placed_start options, .empty⟩

theorem Planted.declareNew (h : p.Planted) (hcoherent : p.Coherent) (d : Decl)
    (hq : (p.declareNew d).2.Placed) : (p.declareNew d).2.Planted := by
  -- Whatever is declared, it is noted and perhaps distrusted after it was filed.
  have hnoted : ∀ m : Variable × Program, m.2.Planted → ((m.2.note m.1 d.name d.kind).distrust m.1 d).Placed →
      ((m.2.note m.1 d.name d.kind).distrust m.1 d).Planted := by
    intro m hm hplaced
    have hnote : (m.2.note m.1 d.name d.kind).system = m.2.system := by cases d.kind <;> rfl
    exact Planted.of_samePlaces (p := m.2.note m.1 d.name d.kind) ⟨hm.1.note _ _ _, hnote ▸ hm.2⟩ hplaced
      (samePlaces_distrust _ _ _)
  refine hnoted _ ?_ hq
  split
  · rename_i isDefinition isStatic params _
    refine ⟨h.1.declareFunction hcoherent d _ _ _, ?_⟩
    simp only [declareFunction]
    split
    · rw [system_indexParams]
      exact h.2
    · rw [system_fileFunction, system_indexParams]
      exact h.2.declareFunction _ _ _ _ _ _
  · exact ⟨h.1.declareVariable d, h.2.declareType (some d.location) d.name true d.type⟩

theorem Planted.callee? {c : CallSite} (h : p.Planted) (hfiled : p.FiledFunctions) (hc : p.callee? c = some (f, q)) :
    q.Planted := by
  refine ⟨(h.1.callee? hfiled hc).1, ?_⟩
  unfold Program.callee? at hc
  split at hc
  · rw [← (Prod.mk.inj (Option.some.inj hc)).2]
    exact h.2
  · obtain ⟨sig, -, hsig⟩ := Option.map_eq_some_iff.1 hc
    obtain rfl : (p.placeholder c.callee sig c.location).2 = q := congrArg Prod.snd hsig
    unfold placeholder
    split
    · exact h.2
    · exact h.2.declareFunction _ _ _ _ _ _

theorem Step.planted {e : Event} (hstep : p.Step e q) (h : p.Planted) (hcoherent : p.Coherent)
    (hfiled : p.FiledFunctions) : q.Planted := by
  have hq := hstep.placed h.1 hcoherent hfiled
  cases hstep with
  | @declare node d nodes hunit =>
      have hopen : Planted { p with unit := some (nodes.insert node d.location) } := ⟨h.1.of_eq rfl rfl, h.2⟩
      revert hq
      unfold Program.declare
      split
      · exact fun _ => hopen
      · exact hopen.declareNew (hcoherent.of_continues (.refl p.system) rfl rfl rfl) d
  | assign | cast | wild => exact h.of_samePlaces hq (p.samePlaces_withStore _)
  | call =>
      revert hq
      unfold Program.call
      split
      · exact fun hq => h.of_samePlaces hq (p.samePlaces_callAllocator _)
      · split
        · rename_i f m hm
          exact fun hq => (h.callee? hfiled hm).of_samePlaces hq (m.samePlaces_callFunction _ f)
        · exact fun hq => h.of_samePlaces hq (p.samePlaces_withStore _)
  | bounds => exact h.of_samePlaces hq (p.samePlaces_addBounds _ _)

/-- **Along a walk, variables and atoms come from declarations.** -/
theorem Walks.planted (h : Walks { options } p) : p.Planted := by
  induction h with
  | refl => exact planted_start options
  | tail hwalks hturn ih =>
      cases hturn with
      | enter henter =>
          rw [(eq_of_enter henter).2]
          exact ⟨ih.1.of_eq rfl rfl, ih.2⟩
      | event hstep =>
          exact hstep.planted ih (Walks.coherent hwalks (coherent_start options)) (Walks.filedFunctions hwalks)
      | exit hexit =>
          rw [(eq_of_exit hexit).2]
          exact ⟨ih.1.of_eq rfl rfl, ih.2⟩

theorem Walks.planted_link (h : Walks { options } p) : p.link.Planted :=
  h.planted.of_samePlaces h.placed_link p.samePlaces_link

/-- So it stays through all calls, which register nothing. -/
theorem keptByCalls_madeBy : KeptByCalls fun p => System.MadeBy SameAtoms p.system :=
  keptByCalls_of_akin fun _ _ hs hp => hp.store ⟨hs.nextKey, fun key => Bool.eq_iff_iff.1 (hs.contains key)⟩

theorem keptThroughout_madeBy (options : Options) (r : Recording) :
    KeptThroughout options r (Walks { options }) fun p => System.MadeBy SameAtoms p.system :=
  keptThroughout_of_walks (fun _ h => h.planted_link.2) keptByCalls_madeBy

end Program

namespace Session

variable {options : Options} {r : Recording} {t : Session}

/-- **The variables and atoms of a session are a forest**, after any requests: parts have smaller
numbers than what they are parts of, objects have the levels of their types, every atom is that of
one level of one variable, and so no variable has an atom twice and variables share atoms only if
they are nested. -/
theorem forest_respondAll {requests : List Request} {replies : List (Except SessionError Reply)}
    (h : (start options r).respondAll requests = .ok (replies, t)) : t.program.system.Forest := by
  have hsatisfies := satisfies_respondAll (Program.keptThroughout_madeBy options r) h
  cases hbuilt : t.built with
  | false => exact (hsatisfies.unbuilt hbuilt).planted.2.forest
  | true => exact (hsatisfies.built hbuilt).forest

/-- A function takes a pointer to a function and a pointer to rows, and another function is called
that is not declared. -/
def callbacks : Recording where
  units := [
    { file := "a.c"
      events := [
        .declare 0 { localPointer "apply" 1 with
          type := .function .void
            [pointerTo (.function (pointerTo intType) [pointerTo intType] false),
              pointerTo (.array intType (some 4))] false
          kind := .function true false [⟨"f", ⟨"a.c", 1, 12, none⟩⟩, ⟨"rows", ⟨"a.c", 1, 24, none⟩⟩] },
        .declare 1 (localPointer "p" 2),
        .call "unknown" (some ⟨.void, [pointerTo intType], false⟩) [some 1] none none ⟨"a.c", 3, 1, none⟩] }]

/-- The session after it was built and solved. -/
def callbacksSolved : Session := (start {} callbacks).afterAll [.build, .call (.solve false)]

/-- Three of the eleven variables are functions, and the other eight have seven levels in all. -/
theorem callbacksSolved_forest :
    (∃ replies, (start {} callbacks).respondAll [.build, .call (.solve false)] = .ok (replies, callbacksSolved)) ∧
    (callbacksSolved.program.system.declared.map fun v => v.ownAtoms) =
      [[], [1], [2], [], [0], [3, 4], [], [5], [], [6], []] ∧
    callbacksSolved.program.store.nextKey = 7 ∧ callbacksSolved.program.system.Forest := by
  have hsome : (((start {} callbacks).respondAll [.build, .call (.solve false)]).toOption.map (·.1)).isSome = true := by
    decide +kernel
  obtain ⟨replies, hreplies⟩ := Option.isSome_iff_exists.1 hsome
  have hrun : (start {} callbacks).respondAll [.build, .call (.solve false)] = .ok (replies, callbacksSolved) :=
    respondAll_eq_afterAll hreplies
  exact ⟨⟨replies, hrun⟩, by decide +kernel, by decide +kernel, forest_respondAll hrun⟩

end Session

end PointerKinds
