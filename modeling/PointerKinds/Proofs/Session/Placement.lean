/-
Every atom has one place.

Whatever registers an atom files it under a location: a declaration files the variable that it
declared, with all its parts, and a call of an unknown function files the placeholder it makes.
By the numbering of what a declaration gives out, that is all it registered.  And what is filed
later, under one more location, has its place already, for a place that was noted stands.

Events and linking relate variables that were filed, so they register nothing.
-/
import PointerKinds.Proofs.Session.Allotment
import PointerKinds.Proofs.Session.Calls
import PointerKinds.Proofs.Session.Globals

namespace PointerKinds

namespace Program

variable {p q : Program} {v f : Variable} {l : List Demand} {key : AtomKey} {L : Location → Prop}

/-- The variables of a program were declared and related, and its atoms are those with a place. -/
structure Placed (p : Program) : Prop where
  sound : p.system.Sound
  located : ∀ key, p.atomLocations.contains key = true ↔ key < p.store.nextKey

theorem placed_start (options : Options) : Placed { options } where
  sound := System.sound_empty
  located _ := ⟨fun h => (nomatch h), fun h => absurd h (Nat.not_lt_zero _)⟩

/-- The atoms of what was filed are registered. -/
theorem Placed.known (h : p.Placed) (hv : p.system.Files v) : ∀ key ∈ v.atoms, key < p.store.nextKey :=
  (h.sound.declared v (List.mem_of_getElem? hv.find?)).atoms

/-! ### What declares nothing -/

/-- A change to nothing but the store, the bounds and the notes on bodies. -/
structure SamePlaces (p q : Program) : Prop where
  filed : q.system.declared = p.system.declared
  atomLocations : q.atomLocations = p.atomLocations
  declared : q.declared = p.declared
  files : q.files = p.files
  rootCauses : q.rootCauses = p.rootCauses
  unit : q.unit = p.unit

theorem SamePlaces.refl (p : Program) : p.SamePlaces p := ⟨rfl, rfl, rfl, rfl, rfl, rfl⟩

theorem SamePlaces.trans {m : Program} (h : p.SamePlaces q) (h' : q.SamePlaces m) : p.SamePlaces m where
  filed := h'.filed.trans h.filed
  atomLocations := h'.atomLocations.trans h.atomLocations
  declared := h'.declared.trans h.declared
  files := h'.files.trans h.files
  rootCauses := h'.rootCauses.trans h.rootCauses
  unit := h'.unit.trans h.unit

theorem SamePlaces.foldl {α : Type} {step : Program → α → Program} (hstep : ∀ (p : Program) a, p.SamePlaces (step p a))
    (l : List α) (p : Program) : p.SamePlaces (l.foldl step p) := by
  induction l generalizing p with
  | nil => exact .refl p
  | cons a rest ih => exact (hstep p a).trans (ih _)

theorem samePlaces_withStore (p : Program) (s : Store) : p.SamePlaces (p.withStore s) := ⟨rfl, rfl, rfl, rfl, rfl, rfl⟩

theorem samePlaces_distrust (p : Program) (v : Variable) (d : Decl) : p.SamePlaces (p.distrust v d) := by
  unfold distrust
  split
  · exact .refl p
  · exact p.samePlaces_withStore _

theorem samePlaces_addBounds (p : Program) (v : Variable) (e : BoundsExpr) : p.SamePlaces (p.addBounds v e) := by
  unfold addBounds
  split
  · exact ⟨rfl, rfl, rfl, rfl, rfl, rfl⟩
  · exact .refl p

theorem samePlaces_callFunction (p : Program) (c : CallSite) (f : Variable) : p.SamePlaces (p.callFunction c f) := by
  unfold callFunction
  split
  · exact p.samePlaces_withStore _
  · exact .refl p

theorem samePlaces_callAllocator (p : Program) (c : CallSite) : p.SamePlaces (p.callAllocator c) := by
  unfold callAllocator addByteCount
  repeat' split
  all_goals exact ⟨rfl, rfl, rfl, rfl, rfl, rfl⟩

/-! ### What keeps atoms placed -/

/-- A change to neither variables nor places. -/
theorem Placed.of_eq (h : p.Placed) (hsystem : q.system = p.system) (hlocations : q.atomLocations = p.atomLocations) :
    q.Placed where
  sound := hsystem ▸ h.sound
  located key := by
    unfold store
    rw [hsystem, hlocations]
    exact h.located key

/-- Demands on registered atoms. -/
theorem Placed.imposes (h : p.Placed) (hplaces : p.SamePlaces q) (hstore : q.store = p.store.imposeAll l)
    (hl : Demand.Within (· < p.store.nextKey) L l) : q.Placed := by
  have hsame : p.store.SameAtoms (p.store.imposeAll l) := h.sound.packed.sameAtoms_imposeAll hl
  have hsystem : q.system = ⟨p.store.imposeAll l, p.system.declared⟩ := by
    rw [← hplaces.filed, ← hstore]
    rfl
  refine ⟨?_, fun key => ?_⟩
  · rw [hsystem]
    exact h.sound.imposeAll hl
  · rw [hplaces.atomLocations, hstore, hsame.nextKey]
    exact h.located key

theorem contains_locateAtoms (p : Program) (v : Variable) (location : Location) :
    (p.locateAtoms v location).atomLocations.contains key = true ↔
      key ∈ v.atoms ∨ p.atomLocations.contains key = true := by
  have hfold : ∀ (keys : List AtomKey) (m : SortedMap AtomKey Location),
      (keys.foldl (fun m key => m.insertNew key location) m).contains key = true ↔
        key ∈ keys ∨ m.contains key = true := by
    intro keys
    induction keys with
    | nil => exact fun m => (or_iff_right List.not_mem_nil).symm
    | cons x rest ih =>
        intro m
        rw [List.foldl_cons, ih, SortedMap.contains_insertNew, List.mem_cons, or_left_comm, or_assoc]
  exact hfold v.atoms p.atomLocations

/-- A variable whose atoms have a place is filed under one more location. -/
theorem Placed.index (h : p.Placed) (hv : ∀ key ∈ v.atoms, key < p.store.nextKey) (location : Location) :
    (p.index v location).Placed where
  sound := h.sound
  located key := by
    refine (contains_locateAtoms _ v location).trans ?_
    rw [show SortedMap.contains _ key = true ↔ key < p.store.nextKey from h.located key]
    exact or_iff_right_of_imp (hv key)

theorem Placed.indexParams (h : p.Placed) (hf : ∀ key ∈ f.atoms, key < p.store.nextKey) (params : List ParamDecl) :
    (p.indexParams f params).Placed := by
  have hparams : ∀ v ∈ f.params, ∀ key ∈ v.atoms, key < p.store.nextKey := fun v hv key hkey =>
    hf key (Variable.mem_atoms_of_mem_params hv hkey)
  refine (indexParams_induction (P := fun q => q.Placed ∧ q.store = p.store) (fun q param _ v hv hq => ?_) ⟨h, rfl⟩).1
  exact ⟨hq.1.index (fun key hkey => hq.2.symm ▸ hparams v hv key hkey) param.location, hq.2⟩

/-- What is declared is filed with everything it registered. -/
theorem Placed.declared (h : p.Placed) {q : Program} (hsound : q.system.Sound)
    (hout : p.store.GivesOut q.store v.atoms) (hlocations : q.atomLocations = p.atomLocations) (location : Location) :
    (q.locateAtoms v location).Placed where
  sound := hsound
  located key := by
    rw [contains_locateAtoms, hout.mem_iff, hlocations, h.located key]
    constructor
    · rintro (⟨-, hkey⟩ | hkey)
      · exact hkey
      · exact Nat.lt_of_lt_of_le hkey hout.le
    · intro hkey
      exact (Nat.lt_or_ge key p.store.nextKey).symm.imp (fun hge => ⟨hge, hkey⟩) id

/-! ### Declarations -/

theorem Placed.declareFunction (h : p.Placed) (hcoherent : p.Coherent) (d : Decl) (isDefinition isStatic : Bool)
    (params : List ParamDecl) : (p.declareFunction d isDefinition isStatic params).2.Placed := by
  simp only [Program.declareFunction]
  split
  · rename_i f hf
    have hknown := h.known (hcoherent.known _ isDefinition f hf)
    exact (h.index hknown d.location).indexParams hknown params
  · have hsound := h.sound.declareFunction d.name (functionKey d.name d.location.file isStatic) (signatureOf d.type)
      (params.map (·.name)) isDefinition (some d.location)
    have hout := System.declareFunction_givesOut h.sound.packed d.name (functionKey d.name d.location.file isStatic)
      (signatureOf d.type) (params.map (·.name)) isDefinition (some d.location)
    have hplaced := h.declared (q := { p with system := _ }) hsound hout rfl d.location
    have hknown := hout.lt_nextKey
    have hindexed := Placed.indexParams (p := Program.index { p with system := _ } _ d.location)
      (hplaced.of_eq rfl rfl) hknown params
    refine hindexed.of_eq (system_fileFunction ..) ?_
    unfold fileFunction
    split <;> rfl

theorem Placed.declareVariable (h : p.Placed) (d : Decl) : (p.declareVariable d).2.Placed := by
  have hout := System.declare_givesOut h.sound.packed d.name d.type (some d.location)
  exact (h.declared (q := { p with system := _ }) (h.sound.declare d.name d.type (some d.location)) hout rfl
    d.location).of_eq rfl rfl

theorem Placed.note (h : p.Placed) (v : Variable) (name : String) (kind : DeclKind) : (p.note v name kind).Placed := by
  cases kind <;> exact h.of_eq rfl rfl

theorem Placed.distrust (h : p.Placed) (hv : ∀ key ∈ v.atoms, key < p.store.nextKey) (d : Decl) :
    (p.distrust v d).Placed := by
  have hwithin : Demand.Within (· < p.store.nextKey) (fun _ => True) (p.distrustDemands v d) := by
    unfold distrustDemands
    split
    · exact Demand.within_nil
    · exact Demand.within_throughout (fun _ _ => trivial) hv
  exact h.imposes (p.samePlaces_distrust v d) (p.store_distrust v d) hwithin

/-- What is declared is filed, whether or not it was known. -/
theorem files_declareFunction (hcoherent : p.Coherent) (d : Decl) (isDefinition isStatic : Bool)
    (params : List ParamDecl) : (p.declareFunction d isDefinition isStatic params).2.system.Files
      (p.declareFunction d isDefinition isStatic params).1 := by
  simp only [declareFunction]
  split
  · rename_i f hf
    rw [system_indexParams]
    exact hcoherent.known _ isDefinition f hf
  · rw [system_fileFunction, system_indexParams]
    exact (p.system.declareFunction_files ..).2

theorem Placed.declare (h : p.Placed) (hcoherent : p.Coherent) (d : Decl) : (p.declare d).2.Placed := by
  -- Whatever is declared, it is noted and perhaps distrusted after it was filed.
  have hnew : ∀ m : Variable × Program, m.2.Placed → m.2.system.Files m.1 →
      ((m.2.note m.1 d.name d.kind).distrust m.1 d).Placed := by
    intro m hplaced hfiled
    have hnoted := hplaced.note m.1 d.name d.kind
    exact hnoted.distrust (hnoted.known (hfiled.of_continues (extends_note _ _ _ _).system)) d
  unfold Program.declare
  split
  · exact h
  · simp only [declareNew]
    refine hnew _ ?_ ?_
    · split
      · exact h.declareFunction hcoherent d _ _ _
      · exact h.declareVariable d
    · split
      · exact files_declareFunction hcoherent d _ _ _
      · exact (p.system.declareType_files (some d.location) d.name true [] d.type).2

/-! ### Calls -/

/-- Whatever is filed under a name was declared with all its parts. -/
def FiledFunctions (p : Program) : Prop := ∀ l key f, (p.table l).get? key = some f → p.FilesFunction f

theorem FiledFunctions.functionAt? {key : String} (h : p.FiledFunctions) (hf : p.functionAt? key = some f) :
    p.system.Files f := by
  obtain ⟨l, hl⟩ := filed_of_functionAt? hf
  exact (h l key f hl).2

/-- A call is of a function that was filed, or that is made for it. -/
theorem Placed.callee? {c : CallSite} (h : p.Placed) (hfiled : p.FiledFunctions) (hc : p.callee? c = some (f, q)) :
    q.Placed ∧ q.system.Files f := by
  unfold Program.callee? at hc
  split at hc
  · rename_i g hg
    obtain ⟨rfl, rfl⟩ := Prod.mk.inj (Option.some.inj hc)
    rcases Option.or_eq_some_iff.1 hg with hstatic | ⟨-, hglobal⟩
    · exact ⟨h, hfiled.functionAt? hstatic⟩
    · exact ⟨h, hfiled.functionAt? hglobal⟩
  · obtain ⟨sig, -, hsig⟩ := Option.map_eq_some_iff.1 hc
    unfold Program.placeholder at hsig
    split at hsig
    · rename_i g hg
      obtain ⟨rfl, rfl⟩ := Prod.mk.inj hsig
      exact ⟨h, (hfiled .onDemand _ _ hg).2⟩
    · obtain ⟨rfl, rfl⟩ := Prod.mk.inj hsig
      have hsound := h.sound.declareFunction c.callee c.callee sig [] false (some c.location)
      have hout := System.declareFunction_givesOut h.sound.packed c.callee c.callee sig [] false (some c.location)
      exact ⟨(h.declared (q := { p with system := _ }) hsound hout rfl c.location).of_eq rfl rfl,
        (p.system.declareFunction_files ..).2⟩

/-- The arguments and the result of a call are variables that were filed. -/
structure FiledCall (p : Program) (c : CallSite) : Prop where
  args : ∀ v, some v ∈ c.args → p.system.Files v
  result : ∀ v ∈ c.result, p.system.Files v

theorem Placed.callFunction {c : CallSite} (h : p.Placed) (hc : p.FiledCall c) (hf : p.system.Files f) :
    (p.callFunction c f).Placed := by
  refine h.imposes (L := fun _ => True) (p.samePlaces_callFunction c f) (p.store_callFunction c f) ?_
  cases f with
  | object | code => exact Demand.within_nil
  | function head ret params =>
      have hknown := h.known hf
      simp only [Variable.atoms, List.forall_mem_append] at hknown
      refine Demand.within_append.2 ⟨Demand.within_passArgs trivial (fun v hv => h.known (hc.args v hv)) fun w hw => ?_,
        Demand.within_receive trivial hknown.1 fun w hw => h.known (hc.result w hw)⟩
      exact fun key hkey => hknown.2 key (Variable.mem_atomsOfAll.2 ⟨w, hw, hkey⟩)

theorem Placed.callUnknown {c : CallSite} (h : p.Placed) (hc : p.FiledCall c) : (p.callUnknown c).Placed := by
  refine h.imposes (L := fun _ => True) (p.samePlaces_withStore _) (p.store_callUnknown c)
    (Demand.within_outerAll (fun _ _ => trivial) (List.forall_mem_append.2 ⟨?_, ?_⟩))
  · intro v hv
    obtain ⟨arg, harg, rfl⟩ := List.mem_filterMap.1 hv
    exact h.known (hc.args v harg)
  · intro v hv
    exact h.known (hc.result v (Option.mem_toList.1 hv))

theorem Placed.callAllocator {c : CallSite} (h : p.Placed) (hc : p.FiledCall c) : (p.callAllocator c).Placed := by
  refine h.imposes (L := fun _ => True) (p.samePlaces_callAllocator c) (p.store_callAllocator c) ?_
  unfold callAllocatorDemands
  split
  · rename_i result hresult
    split
    · exact Demand.within_outer (fun _ _ => trivial) (h.known (hc.result result hresult))
    · exact Demand.within_nil
  · exact Demand.within_nil

theorem Placed.call {c : CallSite} (h : p.Placed) (hfiled : p.FiledFunctions) (hc : p.FiledCall c) :
    (p.call c).Placed := by
  unfold Program.call
  split
  · exact h.callAllocator hc
  · split
    · rename_i f q hcallee
      obtain ⟨hplaced, hf⟩ := h.callee? hfiled hcallee
      have hsystem := (extends_callee? hcallee).system
      exact hplaced.callFunction ⟨fun v hv => (hc.args v hv).of_continues hsystem,
        fun v hv => (hc.result v hv).of_continues hsystem⟩ hf
    · exact h.callUnknown hc

/-! ### Walking and linking -/

theorem Step.placed {e : Event} (hstep : p.Step e q) (h : p.Placed) (hcoherent : p.Coherent)
    (hfiled : p.FiledFunctions) : q.Placed := by
  have hknown : ∀ {node : NodeId} {v : Variable}, p.resolve node = .ok v → ∀ key ∈ v.atoms, key < p.store.nextKey :=
    fun hv => h.known (hcoherent.files_of_resolve hv)
  cases hstep with
  | @declare node d nodes hunit =>
      exact Placed.declare (p := { p with unit := some (nodes.insert node d.location) }) (h.of_eq rfl rfl)
        (hcoherent.of_continues (.refl p.system) rfl rfl rfl) d
  | assign hv hw =>
      exact h.imposes (L := fun _ => True) (p.samePlaces_withStore _) (p.store_assign _ _ _)
        (Demand.within_assign (fun _ _ => trivial) (hknown hv) (hknown hw))
  | cast hv hw =>
      exact h.imposes (L := fun _ => True) (p.samePlaces_withStore _) (p.store_cast _ _ _ _ _)
        (Demand.within_cast (fun _ _ => trivial) (hknown hv) (hknown hw))
  | call hargs hresult =>
      refine h.call hfiled ⟨fun v hv => ?_, fun v hv => ?_⟩
      · obtain ⟨i, hi⟩ := List.mem_iff_getElem?.1 hv
        exact hcoherent.files_of_resolveAll hargs hi
      · exact hcoherent.files_of_resolveOption (hresult.trans (congrArg Except.ok hv))
  | wild hv =>
      exact h.imposes (L := fun _ => True) (p.samePlaces_withStore _) (p.store_makeWild _ _)
        (Demand.within_throughout (fun _ _ => trivial) (hknown hv))
  | bounds =>
      unfold addBounds
      split
      · exact h.of_eq rfl rfl
      · exact h

/-- What is filed since the start. -/
theorem Walks.filedFunctions {options : Options} (h : Walks { options } p) : p.FiledFunctions :=
  fun _ _ _ hf => h.extends.filesFunction hf

/-- **Along a walk, every registered atom has a place, and nothing else has.** -/
theorem Walks.placed {options : Options} (h : Walks { options } p) : p.Placed := by
  induction h with
  | refl => exact placed_start options
  | tail hwalks hturn ih =>
      cases hturn with
      | enter henter =>
          rw [(eq_of_enter henter).2]
          exact ih.of_eq rfl rfl
      | event hstep =>
          exact hstep.placed ih (Walks.coherent hwalks (coherent_start options)) (Walks.filedFunctions hwalks)
      | exit hexit =>
          rw [(eq_of_exit hexit).2]
          exact ih.of_eq rfl rfl

theorem Placed.within_externDemands (h : p.Placed) (hf : p.system.Files f) (name : String) :
    Demand.Within (· < p.store.nextKey) L (p.externDemands name f) := by
  unfold externDemands
  split
  · exact Demand.within_throughout (fun _ hplace => nomatch hplace) (h.known hf)
  · exact Demand.within_nil

/-- Linking relates what was filed, and names no places. -/
theorem Placed.within_linkDemands (h : p.Placed) (hfiled : p.FiledFunctions) (hglobals : p.ListsGlobals) :
    Demand.Within (· < p.store.nextKey) L p.linkDemands := by
  refine Demand.within_append.2 ⟨Demand.within_append.2 ⟨?_, ?_⟩, ?_⟩
  · refine Demand.within_flatMap.2 fun g hg => Demand.within_neighbours (fun _ hplace => nomatch hplace) fun v hv => ?_
    obtain ⟨id, hid⟩ := SortedMap.mem_values_iff.1 hv
    exact h.known (hglobals.files g.1 g.2 hg id v hid)
  · refine Demand.within_flatMap.2 fun key _ => ?_
    unfold functionDemands
    split
    · rename_i defn decl hdefn hdecl
      exact Demand.within_along (fun _ hplace => nomatch hplace) _ _ _ (h.known (hfiled .withBody key _ hdefn).2)
        (h.known (hfiled .withoutBody key _ hdecl).2)
    · rename_i decl _ hdecl
      exact h.within_externDemands (hfiled .withoutBody key decl hdecl).2 key
    · exact Demand.within_nil
  · refine Demand.within_flatMap.2 fun e he => ?_
    have hf := (hfiled .onDemand e.1 e.2 ((SortedMap.mem_entries_iff ..).1 he)).2
    unfold placeholderDemands
    split
    · rename_i real hreal
      exact Demand.within_agree (fun _ hplace => nomatch hplace) _ _ (h.known hf) (h.known (hfiled.functionAt? hreal))
    · exact h.within_externDemands hf e.1

theorem samePlaces_setExtern (p : Program) (key : String) (hasBody : Bool) : p.SamePlaces (p.setExtern key hasBody) :=
  ⟨rfl, rfl, rfl, rfl, rfl, rfl⟩

theorem samePlaces_markExtern (p : Program) (name : String) (f : Variable) : p.SamePlaces (p.markExtern name f) := by
  simp only [markExtern]
  split
  · exact (p.samePlaces_setExtern name false).trans (samePlaces_withStore _ _)
  · exact p.samePlaces_setExtern name false

theorem samePlaces_link (p : Program) : p.SamePlaces p.link := by
  have hfunction : ∀ (p : Program) (key : String), p.SamePlaces (p.linkFunction key) := by
    intro p key
    unfold linkFunction
    split
    · exact (p.samePlaces_withStore _).trans (samePlaces_setExtern _ _ _)
    · exact p.samePlaces_setExtern key true
    · exact p.samePlaces_markExtern key _
    · exact .refl p
  have hplaceholder : ∀ (p : Program) (e : String × Variable), p.SamePlaces (p.linkPlaceholder e.1 e.2) := by
    intro p e
    unfold linkPlaceholder
    split
    · exact p.samePlaces_withStore _
    · exact p.samePlaces_markExtern e.1 e.2
  have hglobals : p.SamePlaces p.linkGlobals := p.samePlaces_withStore _
  exact (hglobals.trans (.foldl hfunction _ _)).trans (.foldl hplaceholder _ _)

/-- **Linking registers nothing.** -/
theorem Walks.placed_link {options : Options} (h : Walks { options } p) : p.link.Placed :=
  h.placed.imposes (L := fun _ => True) p.samePlaces_link p.store_link
    (h.placed.within_linkDemands h.filedFunctions (h.listsGlobals (listsGlobals_start options)))

end Program

end PointerKinds
