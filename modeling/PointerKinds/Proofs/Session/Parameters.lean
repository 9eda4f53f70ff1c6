/-
Where parameters are reported.

The place of an atom is the location under which its variable was filed first, and nothing that
happens later moves it: whatever is filed notes places for atoms that have none, and whatever is
not filed notes no places.

For the parameters of a function that is too late.  A function is filed before its parameters,
and with all its parts, so their atoms have the place of the function by the time they are filed
under the locations of their own declarations.  There the parameters are found from then on; but
what is reported about them is reported at the function.
-/
import PointerKinds.Proofs.Report.Listing
import PointerKinds.Proofs.Session.Identity
import PointerKinds.Proofs.Session.Mirror

namespace PointerKinds

namespace Program

variable {p q m : Program} {d : Decl} {e : Event} {v f w : Variable} {location : Location} {x : AtomKey}
  {ps : List ParamDecl} {isDefinition isStatic : Bool} {options : Options}

/-! ### Places stand -/

/-- Atoms that have a place in one program have the same place in another. -/
def KeepsPlaces (p q : Program) : Prop :=
  ∀ x L, p.atomLocations.get? x = some L → q.atomLocations.get? x = some L

theorem KeepsPlaces.of_eq (h : q.atomLocations = p.atomLocations) : p.KeepsPlaces q := by
  intro x L hx
  rw [h]
  exact hx

theorem KeepsPlaces.refl (p : Program) : p.KeepsPlaces p := .of_eq rfl

theorem keepsPlaces_withSystem (p : Program) (system : System) : p.KeepsPlaces { p with system } := .of_eq rfl

theorem KeepsPlaces.trans (h : p.KeepsPlaces q) (h' : q.KeepsPlaces m) : p.KeepsPlaces m := by
  intro x L hx
  exact h' x L (h x L hx)

/-- The atoms of a variable that have no place get the one given, and no other atom does. -/
theorem get?_locateAtoms (p : Program) (v : Variable) (location : Location) (x : AtomKey) :
    (p.locateAtoms v location).atomLocations.get? x =
      (p.atomLocations.get? x).or (if x ∈ v.atoms then some location else none) := by
  have hfold : ∀ (keys : List AtomKey) (places : SortedMap AtomKey Location),
      (keys.foldl (fun places key => places.insertNew key location) places).get? x =
        (places.get? x).or (if x ∈ keys then some location else none) := by
    intro keys
    induction keys with
    | nil => simp
    | cons key rest ih =>
        intro places
        rw [List.foldl_cons, ih, SortedMap.get?_insertNew]
        by_cases hx : x = key
        · subst hx
          cases places.get? x <;> simp
        · simp [hx]
  exact hfold v.atoms p.atomLocations

theorem KeepsPlaces.locateAtoms (h : p.KeepsPlaces q) (v : Variable) (location : Location) :
    p.KeepsPlaces (q.locateAtoms v location) := by
  intro x L hx
  rw [get?_locateAtoms, h x L hx, Option.some_or]

theorem KeepsPlaces.index (h : p.KeepsPlaces q) (v : Variable) (location : Location) :
    p.KeepsPlaces (q.index v location) := by
  have hfiled : p.KeepsPlaces { q with declared := _ } := h.trans (.of_eq rfl)
  exact hfiled.locateAtoms v location

theorem KeepsPlaces.indexParams (h : p.KeepsPlaces q) (f : Variable) (ps : List ParamDecl) :
    p.KeepsPlaces (q.indexParams f ps) := by
  refine indexParams_induction (P := p.KeepsPlaces) ?_ h
  intro m param _ v _ hm
  exact hm.index v param.location

theorem keepsPlaces_fileFunction (p : Program) (key : String) (isDefinition : Bool) (f : Variable) :
    p.KeepsPlaces (p.fileFunction key isDefinition f) := by
  unfold fileFunction
  split
  · exact .of_eq rfl
  · exact .of_eq rfl

/-- What follows on a declaration notes no places. -/
theorem keepsPlaces_noted (p : Program) (v : Variable) (d : Decl) (kind : DeclKind) :
    p.KeepsPlaces ((p.note v d.name kind).distrust v d) := by
  have hnote : p.KeepsPlaces (p.note v d.name kind) := by
    cases kind <;> exact .of_eq rfl
  exact hnote.trans (.of_eq (samePlaces_distrust _ v d).atomLocations)

theorem keepsPlaces_declare (p : Program) (d : Decl) : p.KeepsPlaces (p.declare d).2 := by
  unfold declare
  split
  · exact .refl p
  · simp only [declareNew]
    refine KeepsPlaces.trans ?_ (keepsPlaces_noted _ _ d _)
    split
    · simp only [declareFunction]
      split
      · exact ((KeepsPlaces.refl p).index _ d.location).indexParams _ _
      · exact (((p.keepsPlaces_withSystem _).index _ d.location).indexParams _ _).trans (keepsPlaces_fileFunction _ _ _ _)
    · exact (p.keepsPlaces_withSystem _).index _ d.location

/-- A call may make a function to be called, but files nothing that there was before. -/
theorem keepsPlaces_callee? {c : CallSite} (h : p.callee? c = some (f, q)) : p.KeepsPlaces q := by
  unfold callee? at h
  split at h
  · obtain ⟨-, rfl⟩ := Prod.mk.inj (Option.some.inj h)
    exact .refl p
  · obtain ⟨sig, -, hsig⟩ := Option.map_eq_some_iff.1 h
    unfold placeholder at hsig
    split at hsig
    · obtain ⟨-, rfl⟩ := Prod.mk.inj hsig
      exact .refl p
    · obtain ⟨-, rfl⟩ := Prod.mk.inj hsig
      exact ((p.keepsPlaces_withSystem _).locateAtoms _ c.location).trans (.of_eq rfl)

theorem keepsPlaces_call (p : Program) (c : CallSite) : p.KeepsPlaces (p.call c) := by
  unfold call
  split
  · exact .of_eq (p.samePlaces_callAllocator c).atomLocations
  · split
    · rename_i f q hcallee
      exact (keepsPlaces_callee? hcallee).trans (.of_eq (q.samePlaces_callFunction c f).atomLocations)
    · exact .of_eq rfl

/-- **Whatever an event does, a place that was noted stands.** -/
theorem Step.keepsPlaces (h : p.Step e q) : p.KeepsPlaces q := by
  cases h with
  | @declare node d nodes =>
      have hopened : p.KeepsPlaces { p with unit := some (nodes.insert node d.location) } := .of_eq rfl
      exact hopened.trans (keepsPlaces_declare _ d)
  | assign | cast | wild => exact .of_eq rfl
  | call => exact p.keepsPlaces_call _
  | bounds => exact .of_eq (p.samePlaces_addBounds _ _).atomLocations

theorem Turn.keepsPlaces (h : p.Turn q) : p.KeepsPlaces q := by
  cases h with
  | enter henter => exact .of_eq (by rw [(eq_of_enter henter).2])
  | event hstep => exact hstep.keepsPlaces
  | exit hexit => exact .of_eq (by rw [(eq_of_exit hexit).2])

theorem keepsPlaces_link (p : Program) : p.KeepsPlaces p.link := .of_eq p.samePlaces_link.atomLocations

theorem Changes.keepsPlaces (h : p.Changes q) : p.KeepsPlaces q := by
  rcases h.eq with rfl | ⟨s, -, rfl⟩
  · exact .refl q
  · exact .of_eq rfl

/-- What can happen next to the program of a session: a turn of a visit, linking, or a call. -/
inductive Moves (p : Program) : Program → Prop
  | turn {q : Program} (h : p.Turn q) : Moves p q
  | link : Moves p p.link
  | call {q : Program} (h : p.Changes q) : Moves p q

/-- One program becomes another in a session. -/
abbrev LeadsTo : Program → Program → Prop := Relation.ReflTransGen Moves

theorem Walks.leadsTo (h : p.Walks q) : p.LeadsTo q :=
  Relation.ReflTransGen.mono (fun _ _ hturn => .turn hturn) p q h

/-- **Whatever happens in a session, a place that was noted stands.** -/
theorem LeadsTo.keepsPlaces (h : p.LeadsTo q) : p.KeepsPlaces q := by
  induction h with
  | refl => exact .refl p
  | tail _ hmove ih =>
      refine ih.trans ?_
      cases hmove with
      | turn h => exact h.keepsPlaces
      | link => exact keepsPlaces_link _
      | call h => exact h.keepsPlaces

/-! ### A new function -/

/-- A declaration makes a function: nothing is declared at its location, and no function is known
under its key. -/
structure Introduces (p : Program) (d : Decl) (isDefinition isStatic : Bool) (ps : List ParamDecl) : Prop where
  kind : d.kind = .function isDefinition isStatic ps
  free : p.variableAt? d.location = none
  unknown : p.knownFunction? (functionKey d.name d.location.file isStatic) isDefinition = none

/-- The atoms of a new function get its location as their place, those of its parameters too. -/
theorem Introduces.located (h : p.Introduces d isDefinition isStatic ps) (hplaced : p.Placed) :
    ∀ x ∈ (p.declareNew d).1.atoms, (p.declareNew d).2.atomLocations.get? x = some d.location := by
  have hout := System.declareFunction_givesOut hplaced.sound.packed d.name
    (functionKey d.name d.location.file isStatic) (signatureOf d.type) (ps.map (·.name)) isDefinition (some d.location)
  simp only [declareNew, h.kind, declareFunction, h.unknown]
  generalize p.system.declareFunction d.name (functionKey d.name d.location.file isStatic) (signatureOf d.type)
    (ps.map (·.name)) isDefinition (some d.location) = made at hout ⊢
  obtain ⟨f, sys⟩ := made
  intro x hx
  have hnew : p.atomLocations.get? x = none := by
    have hplace := (hplaced.located x).1
    rw [← Option.not_isSome_iff_eq_none]
    intro hsome
    exact Nat.not_lt.2 (hout.mem_iff.1 hx).1 (hplace hsome)
  have hindexed : (({ p with system := sys } : Program).index f d.location).atomLocations.get? x =
      some d.location := by
    refine (get?_locateAtoms _ f d.location x).trans ?_
    rw [show SortedMap.get? _ x = none from hnew, if_pos hx, Option.none_or]
  have hparams := (KeepsPlaces.refl _).indexParams f ps x _ hindexed
  exact keepsPlaces_noted _ f d _ x _ (keepsPlaces_fileFunction _ _ _ f x _ hparams)

theorem Introduces.located_step {node : NodeId} (h : p.Introduces d isDefinition isStatic ps) (hplaced : p.Placed)
    (hstep : p.Step (.declare node d) q) :
    ∀ x ∈ (p.declareNew d).1.atoms, q.atomLocations.get? x = some d.location := by
  intro x hx
  cases hstep with
  | @declare _ _ nodes =>
      have hopened : ({ p with unit := some (nodes.insert node d.location) } : Program).Introduces d isDefinition
          isStatic ps := ⟨h.kind, h.free, h.unknown⟩
      rw [← declareNew_withUnit p (some (nodes.insert node d.location)) d] at hx
      unfold declare
      rw [hopened.free]
      exact hopened.located (hplaced.of_eq rfl rfl) x hx

/-- The event files each parameter under the location of its own declaration. -/
theorem Introduces.mem_filings {node : NodeId} {param : ParamDecl} (h : p.Introduces d isDefinition isStatic ps)
    (hparam : (param, w) ∈ ps.zip (p.declareNew d).1.params) :
    (param.location, w) ∈ p.filings (.declare node d) := by
  simp only [filings, filingsOf, h.free]
  refine List.mem_cons_of_mem _ (List.mem_map.2 ⟨(param, w), ?_, rfl⟩)
  rw [h.kind]
  exact hparam

end Program

namespace Session

open Program (Walks Changes KeepsPlaces Introduces)

variable {s t u : Session} {options : Options} {r : Recording} {requests : List Request}
  {replies : List (Except SessionError Reply)} {x : AtomKey} {L : Location} {i j : Nat} {node : NodeId} {d : Decl}

/-! ### Reports -/

/-- An atom has a place, and whatever is reported about it is reported there. -/
structure ReportedAt (s : Session) (x : AtomKey) (L : Location) : Prop where
  recorded : s.program.atomLocations.get? x = some L
  diagnosed : ∀ file, ∀ g ∈ s.diagnostics.forFile file, g.key = x → file = L.file ∧ g.range = .ofLocation L

/-- An atom is reported at one place only. -/
theorem ReportedAt.unique {L' : Location} (h : s.ReportedAt x L) (h' : s.ReportedAt x L') : L' = L :=
  Option.some.inj (h'.recorded.symm.trans h.recorded)

/-- Every diagnostic is about an atom and at its place. -/
def Pinpoints (s : Session) : Prop :=
  ∀ file, ∀ g ∈ s.diagnostics.forFile file,
    ∃ L, s.program.atomLocations.get? g.key = some L ∧ file = L.file ∧ g.range = .ofLocation L

theorem Pinpoints.reportedAt (h : s.Pinpoints) (hx : s.program.atomLocations.get? x = some L) : s.ReportedAt x L := by
  refine ⟨hx, ?_⟩
  rintro file g hg rfl
  obtain ⟨L', hL', hfile, hrange⟩ := h file g hg
  obtain rfl := Option.some.inj (hx.symm.trans hL')
  exact ⟨hfile, hrange⟩

theorem Pinpoints.of_empty (h : s.diagnostics = (∅ : SortedMap String (List Diagnostic))) : s.Pinpoints := by
  intro file g hg
  rw [h] at hg
  exact absurd hg List.not_mem_nil

/-- Diagnostics that are made anew are made of the places there are. -/
theorem Pinpoints.of_mirrors (h : s.Mirrors) : s.Pinpoints := by
  intro file g hg
  obtain ⟨added, hds⟩ := h.exists_populate
  obtain ⟨e, he, rfl, rfl⟩ := Diagnostics.exists_found hds hg
  obtain ⟨-, L, hL, hfile, hrange⟩ := WildReport.located_of_mem he
  refine ⟨L, ?_, hfile.symm, (Diagnostic.range_limitNotes e.2 _).trans hrange⟩
  rw [Diagnostic.key_limitNotes]
  exact (Option.filter_eq_some_iff.1 hL).1

/-- What a request makes of the program, and that diagnostics stay where they belong. -/
theorem Answers.pinpoints {request : Request} {reply : Except SessionError Reply} (h : s.Answers request reply t)
    (hunbuilt : s.built = false → s.diagnostics = (∅ : SortedMap String (List Diagnostic))) (hs : s.Pinpoints) :
    t.Pinpoints := by
  cases h with
  | refused => exact hs
  | stopped hbuilt => exact .of_empty (hunbuilt hbuilt)
  | built hbuilt => exact .of_empty (hunbuilt hbuilt)
  | unwritten => exact hs
  | refreshed _ _ _ hrefresh => exact .of_mirrors (.of_refresh hrefresh)

/-- **Whatever is asked of a session, its diagnostics are at the places of their atoms.** -/
theorem pinpoints_respondAll (h : (start options r).respondAll requests = .ok (replies, t)) : t.Pinpoints := by
  have hkept := respondAll_induction (S := fun s =>
    (s.built = false → s.diagnostics = (∅ : SortedMap String (List Diagnostic))) ∧ s.Pinpoints) ?_ ?_ h
  · exact hkept.2
  · intro s request reply u hanswer hs
    exact ⟨hanswer.undiagnosed hs.1, hanswer.pinpoints hs.1 hs.2⟩
  · exact ⟨fun _ => rfl, .of_empty rfl⟩

/-! ### What becomes of an event -/

theorem Answers.leadsTo {request : Request} {reply : Except SessionError Reply} (h : s.Answers request reply t) :
    s.program.LeadsTo t.program := by
  cases h with
  | refused => exact .refl
  | stopped _ hvisit => exact (walks_visitAll hvisit).leadsTo
  | built _ hvisit => exact (walks_visitAll hvisit).leadsTo.tail .link
  | unwritten => exact .single (.call .solve)
  | refreshed _ _ hchanges hrefresh =>
      rw [(refresh_frame hrefresh).1]
      exact .single (.call hchanges)

theorem leadsTo_respondAll (h : s.respondAll requests = .ok (replies, t)) : s.program.LeadsTo t.program :=
  respondAll_induction (S := fun u => s.program.LeadsTo u.program)
    (fun _ _ _ _ hanswer hu => hu.trans hanswer.leadsTo) .refl h

/-- On the way to what a session has come to, an event was replayed into a program and made another
of it. -/
structure Replayed (options : Options) (m : Program) (e : Event) (q : Program) (t : Session) : Prop where
  before : Walks { options } m
  event : m.Step e q
  after : q.LeadsTo t.program

/-- A session that is built has replayed every event of its recording. -/
theorem exists_replayed {e : Event}
    (h : (start options r).respondAll (.build :: requests) = .ok (.ok .built :: replies, t))
    (he : r.event? j i = some e) : ∃ m q, Before options r j i m ∧ Replayed options m e q t := by
  obtain ⟨⟨reply, s⟩, hreply, h⟩ := Program.exists_of_bind_eq_ok h
  obtain ⟨⟨rest, u⟩, hlater, h⟩ := Program.exists_of_bind_eq_ok h
  obtain ⟨hreplies, rfl⟩ := Prod.mk.inj (Except.ok.inj h)
  obtain ⟨rfl, -⟩ := List.cons.inj hreplies
  obtain ⟨⟨result, v⟩, hbuild, ha⟩ := exists_of_map_eq_ok hreply
  obtain ⟨hresult, rfl⟩ := Prod.mk.inj ha
  cases result with
  | error err => exact nomatch hresult
  | ok _ =>
      obtain ⟨m, q, p, hbefore, hstep, hwalks, hlink⟩ := exists_before hbuild he
      have hlinked : q.LeadsTo v.program := hlink ▸ hwalks.leadsTo.tail .link
      exact ⟨m, q, hbefore, hbefore.walks, hstep, hlinked.trans (leadsTo_respondAll hlater)⟩

/-! ### Parameters -/

/-- **Parameters are reported at their function.**  Wherever in a session a declaration makes a new
function, each parameter of it is filed under the location of its own declaration, and yet the
place of its atoms is the location of the function, then and after any requests.  There the
diagnostics about them are, and they are at the parameter's own location only if that is the
function's. -/
theorem parameters_reported_at_function {m q : Program} {isDefinition isStatic : Bool} {ps : List ParamDecl}
    (h : (start options r).respondAll requests = .ok (replies, t)) (hevent : Replayed options m (.declare node d) q t)
    (hnew : m.Introduces d isDefinition isStatic ps) :
    ∀ param w, (param, w) ∈ ps.zip (m.declareNew d).1.params →
      (param.location, w) ∈ m.filings (.declare node d) ∧
      ∀ x ∈ w.atoms, q.atomLocations.get? x = some d.location ∧ t.ReportedAt x d.location ∧
        (t.ReportedAt x param.location ↔ param.location = d.location) := by
  intro param w hparam
  refine ⟨hnew.mem_filings hparam, ?_⟩
  intro x hx
  have hfunction : x ∈ (m.declareNew d).1.atoms :=
    Variable.mem_atoms_of_mem_params (List.of_mem_zip hparam).2 hx
  have hplace := hnew.located_step hevent.before.placed hevent.event x hfunction
  have hreported : t.ReportedAt x d.location :=
    (pinpoints_respondAll h).reportedAt (hevent.after.keepsPlaces x d.location hplace)
  refine ⟨hplace, hreported, ?_⟩
  constructor
  · intro h'
    exact hreported.unique h'
  · intro he
    rw [he]
    exact hreported

/-! ### A concrete session -/

/-- The location of a function, and that of its parameter further along the line. -/
def functionPlace : Location := ⟨"a.c", 1, 1, none⟩

def parameterPlace : Location := ⟨"a.c", 1, 8, none⟩

/-- A function is declared, and its parameter is used in a way that cannot be checked. -/
def parameterUsed : Recording where
  units := [{
    file := "a.c"
    events := [
      .declare 0 (functionWithParam functionPlace parameterPlace),
      .declare 1 { localPointer "x" 1 with location := parameterPlace }, .wild 1 ⟨"why", none⟩] }]

/-- The session after it was built and solved. -/
def parameterSolved : Session := (start {} parameterUsed).afterAll [.build, .call (.solve false)]

theorem parameterX_listed : (⟨"x", parameterPlace⟩, parameterX) ∈ [(⟨"x", parameterPlace⟩ : ParamDecl)].zip
    ((firstBefore parameterUsed "a.c" 0).declareNew (functionWithParam functionPlace parameterPlace)).1.params :=
  List.mem_singleton_self _

/-- The parameter is reported at the function and not where it is declared itself. -/
theorem parameterSolved_at_function :
    (∃ reply, (start {} parameterUsed).respondAll [.build, .call (.solve false)] =
      .ok ([.ok .built, reply], parameterSolved)) ∧
    Before {} parameterUsed 0 0 (firstBefore parameterUsed "a.c" 0) ∧
    (firstBefore parameterUsed "a.c" 0).Introduces (functionWithParam functionPlace parameterPlace) false false
      [⟨"x", parameterPlace⟩] ∧
    parameterSolved.ReportedAt 1 functionPlace ∧ ¬ parameterSolved.ReportedAt 1 parameterPlace := by
  have hrun : (start {} parameterUsed).respondAll [.build, .call (.solve false)] =
      .ok ([.ok .built, .ok (.solved (ofRecording parameterUsed).program.solve.1)], parameterSolved) :=
    respondAll_eq_afterAll rfl
  have hfirst : Before {} parameterUsed 0 0 (firstBefore parameterUsed "a.c" 0) := .intro rfl rfl rfl rfl rfl
  have hnew : (firstBefore parameterUsed "a.c" 0).Introduces (functionWithParam functionPlace parameterPlace) false
      false [⟨"x", parameterPlace⟩] := ⟨rfl, rfl, rfl⟩
  obtain ⟨m, q, hbefore, hevent⟩ := exists_replayed hrun
    (show parameterUsed.event? 0 0 = some (.declare 0 (functionWithParam functionPlace parameterPlace)) from rfl)
  obtain rfl := hbefore.eq hfirst
  obtain ⟨-, hatoms⟩ := parameters_reported_at_function hrun hevent hnew _ _ parameterX_listed
  obtain ⟨-, hreported, hown⟩ := hatoms 1 (by decide)
  exact ⟨⟨_, hrun⟩, hfirst, hnew, hreported, mt hown.1 (by decide)⟩

/-- Nothing was declared at the parameter's location before, and still the atom of the parameter has
another place: the parameter is an error at the function, and there is no other diagnostic. -/
theorem parameter_off_its_place :
    (start {} parameterUsed).build = .ok (.ok (), ofRecording parameterUsed) ∧
    Before {} parameterUsed 0 0 (firstBefore parameterUsed "a.c" 0) ∧
    (firstBefore parameterUsed "a.c" 0).Introduces (functionWithParam functionPlace parameterPlace) false false
      [⟨"x", parameterPlace⟩] ∧
    (firstBefore parameterUsed "a.c" 0).declared.get? parameterPlace = none ∧
    (⟨"x", parameterPlace⟩, parameterX) ∈ [(⟨"x", parameterPlace⟩ : ParamDecl)].zip
      ((firstBefore parameterUsed "a.c" 0).declareNew (functionWithParam functionPlace parameterPlace)).1.params ∧
    1 ∈ parameterX.atoms ∧
    parameterSolved.program.atomLocations.get? 1 = some functionPlace ∧ functionPlace ≠ parameterPlace ∧
    ((parameterSolved.diagnostics.forFile "a.c").map fun g => (g.key, g.range)) = [(1, .ofLocation functionPlace)] ∧
    SourceRange.ofLocation functionPlace ≠ .ofLocation parameterPlace := by
  refine ⟨rfl, .intro rfl rfl rfl rfl rfl, ⟨rfl, rfl, rfl⟩, rfl, parameterX_listed, ?_⟩
  decide +kernel

end Session

end PointerKinds
