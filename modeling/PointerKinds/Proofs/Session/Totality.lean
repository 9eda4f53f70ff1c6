/-
Every request is answered.

A session would fault if a unit were opened while one is open, if it were closed or given a node
while none is, or if a diagnostic did not fit into the space of positions.  But replaying an event
leaves the open unit open, whatever it does to the program; an event that cannot be replayed is
missing a node, and is an answer and no fault; and then, as at the end of its events, the unit is
closed before anything else happens.  So between requests no unit is open, and its nodes are
forgotten.  And diagnostics point at the places of the recording, so if these fit, they do.
-/
import PointerKinds.Proofs.Session.Locations

namespace PointerKinds

namespace Program

variable {p q : Program} {f : Variable} {e : Event} {es : List Event} {file : String} {i : Nat} {stop : Option Stop}

/-! ### The open unit -/

theorem unit_indexParams (p : Program) (f : Variable) (params : List ParamDecl) :
    (p.indexParams f params).unit = p.unit :=
  indexParams_induction (P := fun q => q.unit = p.unit) (fun _ _ _ _ _ h => h) rfl

theorem unit_declareFunction (p : Program) (d : Decl) (isDefinition isStatic : Bool) (params : List ParamDecl) :
    (p.declareFunction d isDefinition isStatic params).2.unit = p.unit := by
  have hfile : ∀ (m : Program) (key : String) (f : Variable), (m.fileFunction key isDefinition f).unit = m.unit := by
    intro m key f
    unfold fileFunction
    split <;> rfl
  simp only [declareFunction]
  split
  · rw [unit_indexParams]
    rfl
  · rw [hfile, unit_indexParams]
    rfl

theorem unit_declare (p : Program) (d : Decl) : (p.declare d).2.unit = p.unit := by
  have hnew : ∀ m : Variable × Program, ((m.2.note m.1 d.name d.kind).distrust m.1 d).unit = m.2.unit := by
    intro m
    have hnote : (m.2.note m.1 d.name d.kind).unit = m.2.unit := by cases d.kind <;> rfl
    rw [(samePlaces_distrust _ m.1 d).unit, hnote]
  unfold declare
  split
  · rfl
  · simp only [declareNew]
    rw [hnew]
    split
    · exact p.unit_declareFunction d _ _ _
    · rfl

theorem unit_callee? {c : CallSite} (h : p.callee? c = some (f, q)) : q.unit = p.unit := by
  unfold callee? at h
  split at h
  · rw [← (Prod.mk.inj (Option.some.inj h)).2]
  · obtain ⟨sig, -, hsig⟩ := Option.map_eq_some_iff.1 h
    rw [← (Prod.mk.inj hsig).2]
    split <;> rfl

theorem unit_call (p : Program) (c : CallSite) : (p.call c).unit = p.unit := by
  unfold call
  split
  · exact (p.samePlaces_callAllocator c).unit
  · split
    · rename_i f q hcallee
      rw [(q.samePlaces_callFunction c f).unit, unit_callee? hcallee]
    · rfl

/-- Replaying an event leaves the unit open. -/
theorem Step.isSome_unit (h : p.Step e q) (hunit : p.unit.isSome = true) : q.unit.isSome = true := by
  cases h with
  | declare =>
      rw [unit_declare]
      rfl
  | assign | cast | wild => exact hunit
  | call =>
      rw [unit_call]
      exact hunit
  | bounds =>
      rw [(p.samePlaces_addBounds _ _).unit]
      exact hunit

/-! ### What stops a unit -/

/-- What fails without being a fault. -/
def Faultless {α : Type} (x : Except EventError α) : Prop := ∀ fault, x ≠ .error (.fault fault)

theorem Faultless.ok {α : Type} (a : α) : Faultless (.ok a) := fun _ h => nomatch h

theorem Faultless.bind {α β : Type} {x : Except EventError α} {g : α → Except EventError β} (hx : Faultless x)
    (hg : ∀ a, Faultless (g a)) : Faultless (x >>= g) := by
  cases x with
  | error err => exact fun fault h => hx fault (congrArg Except.error (Except.error.inj h))
  | ok a => exact hg a

theorem faultless_resolve (p : Program) (node : NodeId) : Faultless (p.resolve node) := by
  unfold resolve
  split
  · exact .ok _
  · exact fun fault h => nomatch Except.error.inj h

theorem faultless_resolveOption (p : Program) (node : Option NodeId) : Faultless (p.resolveOption node) := by
  cases node with
  | none => exact .ok none
  | some node => exact (p.faultless_resolve node).bind fun v => .ok (some v)

theorem faultless_resolveAll (p : Program) (nodes : List (Option NodeId)) : Faultless (p.resolveAll nodes) := by
  induction nodes with
  | nil => exact .ok []
  | cons node nodes ih => exact (p.faultless_resolveOption node).bind fun v => ih.bind fun vs => .ok (v :: vs)

/-- In an open unit, an event can only want for a node. -/
theorem faultless_replayEvent (hunit : p.unit.isSome = true) (e : Event) : Faultless (p.replayEvent e) := by
  obtain ⟨nodes, hnodes⟩ := Option.isSome_iff_exists.1 hunit
  cases e with
  | declare node d =>
      unfold replayEvent declareNode register
      rw [hnodes]
      exact .ok _
  | assign target source location =>
      exact (p.faultless_resolve target).bind fun _ => (p.faultless_resolve source).bind fun _ => .ok _
  | cast target targetType source sourceType location =>
      exact (p.faultless_resolve target).bind fun _ => (p.faultless_resolve source).bind fun _ => .ok _
  | call callee signature args result allocSize location =>
      exact (p.faultless_resolveAll args).bind fun _ => (p.faultless_resolveOption result).bind fun _ => .ok _
  | wild node why => exact (p.faultless_resolve node).bind fun _ => .ok _
  | bounds node expr => exact (p.faultless_resolve node).bind fun _ => .ok _

/-- A unit that is open stays open while events are replayed, and no fault stops them. -/
theorem replayEvents_open (hunit : p.unit.isSome = true) (h : p.replayEvents file i es = (q, stop)) :
    q.unit.isSome = true ∧ ∀ fault, stop ≠ some (.fault fault) := by
  induction es generalizing p i with
  | nil =>
      obtain ⟨rfl, rfl⟩ := Prod.mk.inj h
      exact ⟨hunit, fun _ hstop => nomatch hstop⟩
  | cons e es ih =>
      unfold replayEvents at h
      split at h
      · rename_i q' hq'
        exact ih ((step_of_replayEvent hq').isSome_unit hunit) h
      · rename_i err herr
        obtain ⟨rfl, rfl⟩ := Prod.mk.inj h
        refine ⟨hunit, fun fault hstop => ?_⟩
        cases err with
        | fault f => exact faultless_replayEvent hunit e f herr
        | undeclared node => exact nomatch Option.some.inj hstop

theorem visit_open {r : Recording} (hunit : p.unit.isSome = true) (h : p.visit r file = (q, stop)) :
    q.unit.isSome = true ∧ ∀ fault, stop ≠ some (.fault fault) := by
  unfold visit at h
  split at h
  · exact replayEvents_open hunit h
  · obtain ⟨rfl, rfl⟩ := Prod.mk.inj h
    exact ⟨hunit, fun _ hstop => nomatch Option.some.inj hstop⟩

theorem Changes.unit (h : p.Changes q) : q.unit = p.unit := by
  rcases h.eq with rfl | ⟨s, -, rfl⟩ <;> rfl

end Program

namespace Session

open Program (Walks Changes)

variable {s t : Session} {options : Options} {r : Recording} {p q : Program} {files : List String} {request : Request}
  {reply : Except SessionError Reply} {result : Except SessionError Unit}

/-! ### Units -/

/-- **Units can be visited one after the other**, and each is closed before the next is opened. -/
theorem exists_visitAll (r : Recording) (files : List String) (hunit : p.unit = none) :
    ∃ result q, visitAll r p files = .ok (result, q) ∧ q.unit = none := by
  induction files generalizing p with
  | nil => exact ⟨.ok (), p, rfl, hunit⟩
  | cons file files ih =>
      have henter : p.enter file = .ok { p with unit := some ∅, files := p.files.insert file } := by
        unfold Program.enter
        rw [hunit]
      rcases hvisit : Program.visit { p with unit := some ∅, files := p.files.insert file } r file with ⟨m, stop⟩
      obtain ⟨hopen, hstop⟩ := Program.visit_open rfl hvisit
      obtain ⟨nodes, hnodes⟩ := Option.isSome_iff_exists.1 hopen
      have hexit : m.exit = .ok { m with unit := none } := by
        unfold Program.exit
        rw [hnodes]
      rcases stop with _ | fault | err
      · obtain ⟨result, q, hrest, hq⟩ := ih (p := { m with unit := none }) rfl
        exact ⟨result, q, (visitAll_cons_of_visit henter hvisit hexit).trans hrest, hq⟩
      · exact absurd rfl (hstop fault)
      · refine ⟨.error (.replay file err), { m with unit := none }, ?_, rfl⟩
        simp only [visitAll, henter, hvisit, hexit, bind, Except.bind, pure, Except.pure]

theorem unit_visitAll (hunit : p.unit = none) (h : visitAll r p files = .ok (result, q)) : q.unit = none := by
  obtain ⟨result', q', h', hq'⟩ := exists_visitAll r files hunit
  obtain ⟨-, rfl⟩ := Prod.mk.inj (Except.ok.inj (h.symm.trans h'))
  exact hq'

/-- A request leaves no unit open. -/
theorem Answers.unit (h : s.Answers request reply t) (hunit : s.program.unit = none) : t.program.unit = none := by
  cases h with
  | refused => exact hunit
  | stopped _ hvisit => exact unit_visitAll hunit hvisit
  | @built p _ hvisit =>
      show p.link.unit = none
      rw [p.samePlaces_link.unit]
      exact unit_visitAll hunit hvisit
  | unwritten => exact (Changes.unit .solve).trans hunit
  | refreshed _ _ hp ht =>
      rw [(refresh_frame ht).1]
      exact hp.unit.trans hunit

/-! ### Answers -/

/-- A session of a recording whose places all fit, with what it knows of them. -/
abbrev Legible (options : Options) (r : Recording) (s : Session) : Prop :=
  s.Satisfies r (fun p => Walks { options } p ∧ p.Cites Location.Fits) (Program.Cites Location.Fits)

theorem exists_refresh_of_changes (hs : s.Legible options r) (hb : s.built = true) (h : s.program.Changes p) :
    ∃ t, { s with program := p }.refresh = .ok t :=
  exists_refresh (s := { s with program := p }) (Program.keptByCalls_cites.of_changes h (hs.built hb))

theorem exists_edit {f : Program → Except SessionError (Bool × Program)} (hs : s.Legible options r)
    (hf : ∀ changed q, f s.program = .ok (changed, q) → s.program.Changes q) : ∃ answer, s.edit f = .ok answer := by
  unfold edit
  split
  · rename_i hb
    split
    · rename_i changed q hanswer
      obtain ⟨t, ht⟩ := exists_refresh_of_changes hs hb (hf changed q hanswer)
      exact ⟨_, by rw [ht]; rfl⟩
    · exact ⟨_, rfl⟩
  · exact ⟨_, rfl⟩

theorem exists_solve (hs : s.Legible options r) (canDump : Bool) : ∃ answer, s.solve canDump = .ok answer := by
  unfold solve
  split
  · rename_i hb
    obtain ⟨t, ht⟩ := exists_refresh_of_changes hs hb .solve
    simp only
    split
    · exact ⟨_, rfl⟩
    · exact ⟨_, by rw [ht]; rfl⟩
  · exact ⟨_, rfl⟩

theorem exists_build (hunit : s.program.unit = none) : ∃ answer, s.build = .ok answer := by
  unfold build
  split
  · exact ⟨_, rfl⟩
  · obtain ⟨result, q, hvisit, -⟩ := exists_visitAll s.recording s.recording.files hunit
    cases result <;> exact ⟨_, by rw [hvisit]; rfl⟩

/-- **A request is answered**, whatever it is. -/
theorem exists_respond (hs : s.Legible options r) (hunit : s.program.unit = none) (request : Request) :
    ∃ reply t, s.respond request = .ok (reply, t) := by
  rcases request with _ | ⟨canDump | key | key | key⟩
  · obtain ⟨answer, h⟩ := exists_build hunit
    exact ⟨_, _, by rw [respond, h]; rfl⟩
  · obtain ⟨answer, h⟩ := exists_solve hs canDump
    exact ⟨_, _, by rw [respond, h]; rfl⟩
  · obtain ⟨answer, h⟩ := exists_edit (f := (·.makeNonWild key)) hs fun _ _ => .makeNonWild
    exact ⟨_, _, by rw [respond, makeNonWild, h]; rfl⟩
  · obtain ⟨answer, h⟩ := exists_edit (f := (·.invalidate key)) hs fun _ _ => .invalidate
    exact ⟨_, _, by rw [respond, invalidate, h]; rfl⟩
  · obtain ⟨answer, h⟩ := exists_edit (f := (·.restore key)) hs fun _ _ => .restore
    exact ⟨_, _, by rw [respond, restore, h]; rfl⟩

/-- **Requests are answered one after the other**, and no unit is left open. -/
theorem exists_respondAll (hfits : ∀ l ∈ r.locations, l.Fits) (hs : s.Legible options r) (hunit : s.program.unit = none)
    (requests : List Request) : ∃ replies t, s.respondAll requests = .ok (replies, t) ∧ t.program.unit = none := by
  induction requests generalizing s with
  | nil => exact ⟨[], s, rfl, hunit⟩
  | cons request requests ih =>
      obtain ⟨reply, u, hu⟩ := exists_respond hs hunit request
      have hanswers := answers_respond hu
      have hlegible : u.Legible options r := hanswers.satisfies (Program.keptThroughout_cites options hfits) hs
      obtain ⟨replies, t, ht, hclosed⟩ := ih hlegible (hanswers.unit hunit)
      exact ⟨reply :: replies, t, by rw [respondAll, hu]; simp only [ht, bind, Except.bind, pure, Except.pure], hclosed⟩

end Session

end PointerKinds
