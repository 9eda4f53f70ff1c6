/-
Every place that a program knows of is one of its recording.

Places are written down where something is declared, and in the explanations of constraints.  An
explanation is never made up: it is what an event gave as its reason, or it names no place.  And
grouping hands on the explanations of constraints.  So what holds of the places of a recording
holds of every place that a diagnostic can point at; and where they all fit into the space of
positions, there is nothing that could keep diagnostics from being made.
-/
import PointerKinds.Proofs.Report.Listing
import PointerKinds.Proofs.Session.Placement
import PointerKinds.Proofs.Session.Requests

namespace PointerKinds

variable {L : Location → Prop}

/-! ### The places of a recording -/

/-- The places of a declaration, its own and those of its parameters. -/
def Decl.locations (d : Decl) : List Location :=
  d.location ::
    match d.kind with
    | .function _ _ params => params.map (·.location)
    | _ => []

/-- The places of an event. -/
def Event.locations : Event → List Location
  | .declare _ d => d.locations
  | .assign _ _ location | .cast _ _ _ _ location => location.toList
  | .call _ _ _ _ _ location => [location]
  | .wild _ why => why.location.toList
  | .bounds .. => []

/-- The places of a recording. -/
def Recording.locations (r : Recording) : List Location :=
  r.units.flatMap fun u => u.events.flatMap Event.locations

theorem Recording.mem_locations {r : Recording} {u : RecordedUnit} {e : Event} (hu : u ∈ r.units) (he : e ∈ u.events) :
    ∀ l ∈ e.locations, l ∈ r.locations :=
  fun _ hl => List.mem_flatMap.2 ⟨u, hu, List.mem_flatMap.2 ⟨e, he, hl⟩⟩

/-! ### Explanations -/

/-- An explanation names certain places only. -/
def Explanation.Cites (L : Location → Prop) (why : Explanation) : Prop := ∀ l ∈ why.location, L l

theorem Explanation.Cites.of_none {why : Explanation} (h : why.location = none) : why.Cites L := by
  intro l hl
  rw [h] at hl
  exact nomatch hl

theorem Explanation.Cites.orLater {why later : Explanation} (h : why.Cites L) (hlater : later.Cites L) :
    (why.orLater later).Cites L := by
  unfold Explanation.orLater
  split
  · exact hlater
  · exact h

namespace Store

variable {s t : Store} {c : Constraint} {d : Demand} {l : List Demand} {key : AtomKey}

/-- The explanations of constraints name certain places only. -/
def Cites (L : Location → Prop) (s : Store) : Prop := ∀ c ∈ s.arena, c.why.Cites L

theorem Cites.of_arena (h : s.Cites L) (ht : t.arena = s.arena) : t.Cites L := fun c hc => h c (ht ▸ hc)

theorem Cites.intern (h : s.Cites L) (hc : c.why.Cites L) : (s.intern c).2.Cites L := by
  unfold Store.intern
  split
  · intro d hd
    obtain ⟨i, hi⟩ := List.mem_iff_getElem?.1 hd
    rw [List.getElem?_modify] at hi
    obtain ⟨old, hold, rfl⟩ := Option.map_eq_some_iff.1 hi
    have hmem := h old (List.mem_of_getElem? hold)
    split
    · exact hmem.orLater hc
    · exact hmem
  · exact List.forall_mem_append.2 ⟨h, List.forall_mem_singleton.2 hc⟩

theorem Cites.post (h : s.Cites L) (hc : c.why.Cites L) : (s.post c).2.Cites L :=
  (h.intern hc).of_arena (arena_add _ _)

theorem Cites.addFlow (h : s.Cites L) (a b : AtomKey) (k : Kind) : (s.addFlow a b k).Cites L :=
  ((h.intern (.of_none rfl)).intern (.of_none rfl)).post (.of_none rfl)

theorem Cites.impose (h : s.Cites L) (hd : ∀ l ∈ d.location?, L l) : (s.impose d).Cites L := by
  cases d with
  | pin key k why => exact h.post hd
  | join a b => exact h.post (.of_none rfl)
  | flow a b =>
      simp only [Store.impose, foldl_addFlow]
      exact ((h.addFlow a b .arr).addFlow a b .ntArr).addFlow a b .wild

/-- Demands that name certain places only. -/
theorem Cites.imposeAll {K : AtomKey → Prop} (h : s.Cites L) (hl : Demand.Within K L l) : (s.imposeAll l).Cites L := by
  induction l generalizing s with
  | nil => exact h
  | cons d rest ih =>
      obtain ⟨hd, hrest⟩ := List.forall_mem_cons.1 hl
      exact ih (h.impose hd.2) hrest

/-- What a level demands is explained by the place of its declaration. -/
theorem keptByLevels_cites {location : Option Location} (hl : ∀ l ∈ location, L l) :
    System.KeptByLevels location (Cites L) := by
  intro sys ty h
  have hshape : ∀ (t : Store) (key : AtomKey) (shape : LevelShape), t.Cites L →
      (System.imposeShape t key location shape).Cites L := by
    intro t key shape ht
    cases shape with
    | pointer => exact ht
    | sizedArray n => exact Cites.post (s := t.forbid key .wild) ht hl
    | unsizedArray => exact ht.post hl
  exact hshape sys.store.newAtom.2 _ (System.shapeOf ty) h

end Store

/-! ### Groups -/

namespace RootCauses

variable {s : Store} {c : RootCauses} {key : AtomKey} {why : Explanation}

/-- Atoms are blamed for reasons that name certain places only. -/
def Cites (L : Location → Prop) (c : RootCauses) : Prop := ∀ key why, c.direct.get? key = some why → why.Cites L

theorem Cites.of_direct {c' : RootCauses} (h : c.Cites L) (hc : c'.direct = c.direct) : c'.Cites L :=
  fun key why hwhy => h key why (hc ▸ hwhy)

theorem Cites.blamed (h : c.Cites L) (hwhy : why.Cites L) : (c.blame key why).Cites L := by
  intro x why' hx
  have hx : (c.direct.insert key why).get? x = some why' := hx
  rw [SortedMap.get?_insert] at hx
  split at hx
  · exact Option.some.inj hx ▸ hwhy
  · exact h x why' hx

/-- What a constraint is the source of, it explains, or what it concludes does. -/
theorem cites_of_sourceIn {d : Constraint} (h : s.Cites L) (hd : d.why.Cites L)
    (hsource : s.sourceIn d key = .direct why) : why.Cites L := by
  have hinj : ∀ {e : Explanation}, WildSource.direct e = .direct why → e.Cites L → why.Cites L :=
    fun he hcites => WildSource.direct.inj he ▸ hcites
  unfold Store.sourceIn at hsource
  split at hsource
  · split at hsource
    · exact nomatch hsource
    · exact hinj hsource hd
  · exact hinj hsource hd
  · split at hsource
    · exact nomatch hsource
    · split at hsource
      · exact nomatch hsource
      · split at hsource
        · rename_i conclusion _ _ _ _ e he
          obtain ⟨i, -, hi⟩ := Option.bind_eq_some_iff.1 he
          exact hinj hsource (hd.orLater (h e (List.mem_of_getElem? hi)))
        · exact hinj hsource hd

theorem cites_of_wildSource (h : s.Cites L) (hsource : s.wildSource key = .direct why) : why.Cites L := by
  unfold Store.wildSource at hsource
  split at hsource
  · rename_i d hd
    obtain ⟨i, -, hi⟩ := Option.bind_eq_some_iff.1 hd
    exact cites_of_sourceIn h (h d (List.mem_of_getElem? hi)) hsource
  · exact WildSource.direct.inj hsource ▸ .of_none rfl

theorem Cites.trace (hs : s.Cites L) (h : c.Cites L) (key : AtomKey) : (trace s c key).Cites L := by
  unfold RootCauses.trace
  split
  · rename_i why hwhy
    exact h.blamed (cites_of_wildSource hs hwhy)
  · split
    · refine h.of_direct ?_
      unfold merge
      split <;> rfl
    · exact h.blamed (.of_none rfl)

theorem Cites.complete (h : c.Cites L) : c.complete.Cites L := by
  unfold RootCauses.complete
  generalize c.label.keys.filter _ = orphans
  induction orphans generalizing c with
  | nil => exact h
  | cons key rest ih => exact ih (h.blamed (.of_none rfl))

/-- **Groups are named after what constraints are explained by.** -/
theorem cites_ofStore (h : s.Cites L) : (ofStore s).Cites L := by
  have hfold : ∀ (keys : List AtomKey) (c : RootCauses), c.Cites L → (keys.foldl (RootCauses.trace s) c).Cites L := by
    intro keys
    induction keys with
    | nil => exact fun _ hc => hc
    | cons key rest ih => exact fun c hc => ih _ (hc.trace h key)
  have hdiscrete : (discrete s.wildAtoms).Cites L := by
    intro key why hwhy
    have hwhy : (∅ : SortedMap AtomKey Explanation).get? key = some why := hwhy
    exact nomatch hwhy
  exact (hfold _ _ hdiscrete).complete

end RootCauses

/-! ### Programs -/

namespace Program

variable {p q : Program} {v f : Variable} {location : Location}

/-- A program knows of certain places only. -/
structure Cites (L : Location → Prop) (p : Program) : Prop where
  store : p.store.Cites L
  atoms : ∀ key l, p.atomLocations.get? key = some l → L l
  causes : p.rootCauses.Cites L

theorem cites_start (options : Options) : Cites L { options } where
  store _ hc := absurd hc List.not_mem_nil
  atoms _ _ h := nomatch h
  causes _ _ h := nomatch h

/-- A change to neither constraints nor places. -/
theorem Cites.of_eq (h : p.Cites L) (hstore : q.store = p.store) (hlocations : q.atomLocations = p.atomLocations)
    (hcauses : q.rootCauses = p.rootCauses) : q.Cites L where
  store := hstore ▸ h.store
  atoms := hlocations ▸ h.atoms
  causes := hcauses ▸ h.causes

theorem Cites.imposes {l : List Demand} {K : AtomKey → Prop} (h : p.Cites L) (hplaces : p.SamePlaces q)
    (hstore : q.store = p.store.imposeAll l) (hl : Demand.Within K L l) : q.Cites L where
  store := hstore ▸ h.store.imposeAll hl
  atoms := hplaces.atomLocations ▸ h.atoms
  causes := hplaces.rootCauses ▸ h.causes

theorem Cites.withSystem {sys : System} (h : p.Cites L) (hsys : sys.store.Cites L) :
    Cites L { p with system := sys } where
  store := hsys
  atoms := h.atoms
  causes := h.causes

theorem Cites.locateAtoms (h : p.Cites L) (v : Variable) (hl : L location) : (p.locateAtoms v location).Cites L where
  store := h.store
  causes := h.causes
  atoms := by
    show ∀ key l, (v.atoms.foldl (fun m key => m.insertNew key location) p.atomLocations).get? key = some l → L l
    have hatoms := h.atoms
    generalize p.atomLocations = m at hatoms
    induction v.atoms generalizing m with
    | nil => exact hatoms
    | cons key rest ih =>
        refine ih _ fun x l hx => ?_
        rw [SortedMap.get?_insertNew] at hx
        split at hx
        · exact Option.some.inj hx ▸ hl
        · exact hatoms x l hx

theorem Cites.index (h : p.Cites L) (v : Variable) (hl : L location) : (p.index v location).Cites L :=
  (h.locateAtoms v hl).of_eq rfl rfl rfl

theorem Cites.indexParams {params : List ParamDecl} (h : p.Cites L) (f : Variable)
    (hparams : ∀ param ∈ params, L param.location) : (p.indexParams f params).Cites L :=
  indexParams_induction (fun _ param hparam v _ hq => hq.index v (hparams param hparam)) h

theorem Cites.declareFunction {d : Decl} {isDefinition isStatic : Bool} {params : List ParamDecl} (h : p.Cites L)
    (hl : L d.location) (hparams : ∀ param ∈ params, L param.location) :
    (p.declareFunction d isDefinition isStatic params).2.Cites L := by
  simp only [Program.declareFunction]
  split
  · exact (h.index _ hl).indexParams _ hparams
  · have hlevels : System.KeptByLevels (some d.location) (Store.Cites L) :=
      Store.keptByLevels_cites fun _ hplace => Option.some.inj hplace ▸ hl
    have hsystem := System.declareFunction_keeps hlevels h.store d.name (functionKey d.name d.location.file isStatic)
      (signatureOf d.type) (params.map (·.name)) isDefinition
    have hfile : ∀ (m : Program) (key : String) (f : Variable), m.Cites L →
        (m.fileFunction key isDefinition f).Cites L := by
      intro m key f hm
      unfold fileFunction
      split <;> exact hm.of_eq rfl rfl rfl
    exact hfile _ _ _ (((h.withSystem hsystem).index _ hl).indexParams _ hparams)

theorem Cites.declareVariable {d : Decl} (h : p.Cites L) (hl : L d.location) : (p.declareVariable d).2.Cites L :=
  (h.withSystem (System.declareType_keeps (Store.keptByLevels_cites fun _ hplace => Option.some.inj hplace ▸ hl) h.store
    d.name true [] d.type)).index _ hl

theorem Cites.note (h : p.Cites L) (v : Variable) (name : String) (kind : DeclKind) : (p.note v name kind).Cites L := by
  cases kind <;> exact h.of_eq rfl rfl rfl

theorem Cites.distrust {d : Decl} (h : p.Cites L) (v : Variable) (hl : L d.location) : (p.distrust v d).Cites L := by
  have hwithin : Demand.Within (fun _ => True) L (p.distrustDemands v d) := by
    unfold distrustDemands
    split
    · exact Demand.within_nil
    · exact Demand.within_throughout (fun _ hplace => Option.some.inj hplace ▸ hl) fun _ _ => trivial
  exact h.imposes (p.samePlaces_distrust v d) (p.store_distrust v d) hwithin

theorem Cites.declare {d : Decl} (h : p.Cites L) (hd : ∀ l ∈ d.locations, L l) : (p.declare d).2.Cites L := by
  obtain ⟨hl, hparams⟩ := List.forall_mem_cons.1 hd
  unfold Program.declare
  split
  · exact h
  · simp only [declareNew]
    refine ((?_ : Cites L _).note _ d.name d.kind).distrust _ hl
    split
    · rename_i isDefinition isStatic params hkind
      rw [hkind] at hparams
      exact h.declareFunction hl fun param hparam => hparams param.location (List.mem_map_of_mem hparam)
    · exact h.declareVariable hl

/-! ### Calls of functions -/

theorem Cites.callee? {c : CallSite} (h : p.Cites L) (hl : L c.location) (hc : p.callee? c = some (f, q)) :
    q.Cites L := by
  unfold Program.callee? at hc
  split at hc
  · exact (Prod.mk.inj (Option.some.inj hc)).2 ▸ h
  · obtain ⟨sig, -, hsig⟩ := Option.map_eq_some_iff.1 hc
    rw [← (Prod.mk.inj hsig).2]
    split
    · exact h
    · have hlevels : System.KeptByLevels (some c.location) (Store.Cites L) :=
        Store.keptByLevels_cites fun _ hplace => Option.some.inj hplace ▸ hl
      have hsystem := System.declareFunction_keeps hlevels h.store c.callee c.callee sig [] false
      exact ((h.withSystem hsystem).locateAtoms _ hl).of_eq rfl rfl rfl

theorem Cites.callFunction {c : CallSite} (h : p.Cites L) (hl : L c.location) (f : Variable) :
    (p.callFunction c f).Cites L := by
  have hwithin : Demand.Within (fun _ => True) L (p.callFunctionDemands c f) := by
    cases f with
    | object | code => exact Demand.within_nil
    | function head ret params =>
        exact Demand.within_append.2 ⟨Demand.within_passArgs hl (fun _ _ _ _ => trivial) fun _ _ _ _ => trivial,
          Demand.within_receive hl (fun _ _ => trivial) fun _ _ _ _ => trivial⟩
  exact h.imposes (p.samePlaces_callFunction c f) (p.store_callFunction c f) hwithin

theorem Cites.callUnknown {c : CallSite} (h : p.Cites L) (hl : L c.location) : (p.callUnknown c).Cites L :=
  h.imposes (p.samePlaces_withStore _) (p.store_callUnknown c)
    (Demand.within_outerAll (K := fun _ => True) (fun _ hplace => Option.some.inj hplace ▸ hl) fun _ _ _ _ => trivial)

theorem Cites.callAllocator {c : CallSite} (h : p.Cites L) (hl : L c.location) : (p.callAllocator c).Cites L := by
  have hwithin : Demand.Within (fun _ => True) L (p.callAllocatorDemands c) := by
    unfold callAllocatorDemands
    split
    · split
      · exact Demand.within_outer (fun _ hplace => Option.some.inj hplace ▸ hl) fun _ _ => trivial
      · exact Demand.within_nil
    · exact Demand.within_nil
  exact h.imposes (p.samePlaces_callAllocator c) (p.store_callAllocator c) hwithin

theorem Cites.call {c : CallSite} (h : p.Cites L) (hl : L c.location) : (p.call c).Cites L := by
  unfold Program.call
  split
  · exact h.callAllocator hl
  · split
    · rename_i f q hcallee
      exact (h.callee? hl hcallee).callFunction hl f
    · exact h.callUnknown hl

/-! ### Through a session -/

/-- An event brings no place but its own. -/
theorem Step.cites {e : Event} (hstep : p.Step e q) (he : ∀ l ∈ e.locations, L l) (h : p.Cites L) : q.Cites L := by
  have htoList : ∀ {o : Option Location}, (∀ l ∈ o.toList, L l) → ∀ l ∈ o, L l :=
    fun ho l hl => ho l (Option.mem_toList.2 hl)
  cases hstep with
  | @declare node d nodes =>
      exact Cites.declare (p := { p with unit := some (nodes.insert node d.location) }) (h.of_eq rfl rfl rfl) he
  | assign =>
      exact h.imposes (p.samePlaces_withStore _) (p.store_assign _ _ _)
        (Demand.within_assign (K := fun _ => True) (htoList he) (fun _ _ => trivial) fun _ _ => trivial)
  | cast =>
      exact h.imposes (p.samePlaces_withStore _) (p.store_cast _ _ _ _ _)
        (Demand.within_cast (K := fun _ => True) (htoList he) (fun _ _ => trivial) fun _ _ => trivial)
  | call => exact h.call (List.forall_mem_singleton.1 he)
  | wild =>
      exact h.imposes (p.samePlaces_withStore _) (p.store_makeWild _ _)
        (Demand.within_throughout (K := fun _ => True) (htoList he) fun _ _ => trivial)
  | bounds =>
      unfold addBounds
      split
      · exact h.of_eq rfl rfl rfl
      · exact h

/-- Linking names no places. -/
theorem Cites.link {options : Options} (hwalks : Walks { options } p) (h : p.Cites L) : p.link.Cites L :=
  h.imposes p.samePlaces_link p.store_link
    (hwalks.placed.within_linkDemands hwalks.filedFunctions (hwalks.listsGlobals (listsGlobals_start options)))

theorem keptByCalls_cites : KeptByCalls (Cites L) :=
  keptByCalls_of_akin fun _ _ hs hp =>
    have hstore := hp.store.of_arena hs.arena
    ⟨hstore, hp.atoms, RootCauses.cites_ofStore hstore⟩

/-- **Whatever a session does, its program knows of no place but those of the recording.** -/
theorem keptThroughout_cites (options : Options) {r : Recording} (hr : ∀ l ∈ r.locations, L l) :
    KeptThroughout options r (fun p => Walks { options } p ∧ p.Cites L) (Cites L) where
  start := ⟨.refl, cites_start options⟩
  enter _ _ _ h hp := by
    refine ⟨hp.1.trans (Turn.enter h).walks, ?_⟩
    rw [(eq_of_enter h).2]
    exact hp.2.of_eq rfl rfl rfl
  event _ hu _ he _ _ hstep hp :=
    ⟨hp.1.trans (Turn.event hstep).walks, hstep.cites (fun l hl => hr l (Recording.mem_locations hu he l hl)) hp.2⟩
  exit _ _ h hp := by
    refine ⟨hp.1.trans (Turn.exit h).walks, ?_⟩
    rw [(eq_of_exit h).2]
    exact hp.2.of_eq rfl rfl rfl
  link _ hp := hp.2.link hp.1
  calls := keptByCalls_cites

end Program

/-! ### Diagnostics -/

/-- The stretch that starts at a location is in the space of positions, whether or not its end is
known. -/
structure Location.Fits (l : Location) : Prop where
  width : l.col + SourceRange.defaultWidth < SourceRange.positionLimit
  endCol : ∀ c ∈ l.endCol, c < SourceRange.positionLimit

instance (l : Location) : Decidable l.Fits :=
  decidable_of_iff (l.col + SourceRange.defaultWidth < SourceRange.positionLimit ∧
    ∀ c ∈ l.endCol, c < SourceRange.positionLimit) ⟨fun h => ⟨h.1, h.2⟩, fun h => ⟨h.width, h.endCol⟩⟩

theorem Location.Fits.ofLocation {l : Location} (h : l.Fits) : (SourceRange.ofLocation l).fits = true := by
  refine decide_eq_true ?_
  unfold SourceRange.ofLocation
  cases hend : l.endCol with
  | none => exact h.width
  | some c =>
      dsimp only
      split
      · exact h.endCol c hend
      · exact h.width

/-- Where all places of a program fit, so do the stretches that diagnostics of it are about. -/
theorem Program.Cites.fits {p : Program} (h : p.Cites Location.Fits) : p.wildReport.Fits where
  declared l hl := by
    obtain ⟨key, hkey⟩ := SortedMap.mem_values_iff.1 hl
    exact (h.atoms key l hkey).ofLocation
  forced why hwhy l hl _ := by
    obtain ⟨key, hkey⟩ := SortedMap.mem_values_iff.1 hwhy
    exact (h.causes key why hkey l hl).ofLocation

namespace Session

variable {s : Session}

/-- Diagnostics can be made of a program whose places all fit. -/
theorem exists_refresh (h : s.program.Cites Location.Fits) : ∃ t, s.refresh = .ok t := by
  unfold refresh Diagnostics.populate
  rw [if_pos (List.all_eq_true.2 fun _ => h.fits.fits_diagnostics)]
  exact ⟨_, rfl⟩

end Session

end PointerKinds
