/-
No session has anything to stop at.

A session knows constraints, variables and parts of formulas by number, and looks them up in
tables that have no answer for a number out of range.  Its numbers have a size, and so have those
of positions.  Units are to be opened and closed in turn, and an assignment of the solver is to
take its atom up to a kind that the filter lets pass.  None of this is tested where the session
relies on it.  Here it is: the guarded session is the same program, with the solver that tests
every assignment, and with every constraint and variable looked up where it is passed on by number.
Whatever is only gone through is surveyed before: the store before the solver runs over it and
before its unchecked atoms are grouped, and the variables before they are linked.  After every
event, after linking and after every solution or edit all books are surveyed.  A test that fails
ends everything.  That the guarded session gives the same answers says that there is nothing to
stop at.

The surveys of all books cover what is looked up by requests that only read.  No number is ever
given back; so if there are some left in the end, there were some left at every survey before.

What the solver counts about itself is not tested.  These are 64-bit numbers of things that are
done one at a time, and how many there are at most is told with the cost of solving.
-/
import PointerKinds.Proofs.Report.Counting
import PointerKinds.Proofs.Session.Accounts
import PointerKinds.Proofs.Session.EventLookups
import PointerKinds.Proofs.Session.Mirror
import PointerKinds.Proofs.Session.Totality

namespace PointerKinds

/-! ### The guarded session -/

namespace Program

/-- Looks up every number that a program keeps, and whether there are any left. -/
def survey (p : Program) : Except Breach Program := do
  p.store.survey
  p.lookUp p.variablesKept
  if p.store.isExhausted || Store.keyLimit ≤ p.store.arena.length then throw .exhausted
  return p

/-- Replays events, with a survey after each. -/
def guardedReplayEvents (p : Program) (file : String) (i : Nat) : List Event → Except Breach (Program × Option Stop)
  | [] => .ok (p, none)
  | e :: es => do
    match ← p.guardedReplayEvent e with
    | .ok q => do guardedReplayEvents (← q.survey) file (i + 1) es
    | .error err => return (p, some (err.stop file i))

/-- Replays the recording of a file into the open unit. -/
def guardedVisit (p : Program) (r : Recording) (file : String) : Except Breach (Program × Option Stop) :=
  match r.unitOf? file with
  | some u => p.guardedReplayEvents file 0 u.events
  | none => .ok (p, some (.error (.noRecording file)))

/-- Links the program. -/
def guardedLink (p : Program) : Except Breach Program := do
  p.lookUp p.variablesKept
  (← p.imposing p.link p.linkDemands).survey

/-- Takes over a store and groups its unchecked atoms anew. -/
def guardedRegroup (p : Program) (s : Store) : Except Breach Program := do
  s.survey
  (p.withStore s).regroup.survey

/-- Solves the program from the kinds it has. -/
def guardedSolve (p : Program) : Except Breach (Outcome × Program) := do
  let (outcome, s) ← p.store.surveyedSolve
  return (outcome, ← p.guardedRegroup s)

/-- Refuses keys that are not registered. -/
def guardedIfKnown {α : Type} (p : Program) (key : AtomKey) (x : Except Breach α) :
    Except Breach (Except SessionError α) :=
  if p.store.atoms.contains key then x.map .ok else .ok (.error (.unknownAtom key))

/-- Makes an atom checked again. -/
def guardedMakeNonWild (p : Program) (key : AtomKey) : Except Breach (Except SessionError (Bool × Program)) :=
  p.guardedIfKnown key do
    let (converted, s) ← p.store.surveyedMakeNonWild key (p.regionOf key)
    return (!converted.isEmpty, ← p.guardedRegroup s)

/-- Erases the reason of an atom's group, wherever it was given. -/
def guardedInvalidate (p : Program) (key : AtomKey) : Except Breach (Except SessionError (Bool × Program)) :=
  p.guardedIfKnown key <|
    match p.rootCauses.find key with
    | none => .ok (false, p)
    | some root => do
      let reason := ((p.rootCauses.reason root).map (·.reason)).getD ""
      p.store.survey
      let (_, s) ← (← p.store.guardedEraseAll (p.store.wildForcing root)).surveyedEraseReason reason
      return (p.rootCauses.keys.any fun k => s.value k ≠ .wild, ← p.guardedRegroup s)

/-- Puts what was erased from an atom back in force and solves from scratch. -/
def guardedRestore (p : Program) (key : AtomKey) : Except Breach (Except SessionError (Bool × Program)) :=
  p.guardedIfKnown key <|
    if (p.store.restorable key).isEmpty then .ok (false, p)
    else do
      let (_, s) ← p.store.surveyedRestore key
      return (true, ← p.guardedRegroup s)

end Program

namespace Session

/-- Visits the units of files in order and stops at the first that cannot be replayed. -/
def guardedVisitAll (r : Recording) (p : Program) : List String → Except Breach (Except SessionError Unit × Program)
  | [] => .ok (.ok (), p)
  | file :: files => do
    let p ← (p.enter file).mapError .fault
    let (p, stop) ← p.guardedVisit r file
    match stop with
    | some (.fault f) => throw (.fault f)
    | some (.error e) => return (.error (.replay file e), ← p.exit.mapError .fault)
    | none => guardedVisitAll r (← p.exit.mapError .fault) files

/-- Visits all units and links the program. -/
def guardedBuild (s : Session) : Except Breach (Except SessionError Unit × Session) :=
  if s.built then .ok (.error .alreadyBuilt, s)
  else do
    let (result, p) ← guardedVisitAll s.recording s.program s.recording.files
    match result with
    | .ok _ => return (.ok (), { s with program := ← p.guardedLink, built := true })
    | .error e => return (.error e, { s with program := p })

/-- Solves the program and makes the diagnostics anew. -/
def guardedSolve (s : Session) (canDump : Bool) : Except Breach (Except SessionError Outcome × Session) :=
  if s.built then do
    let (outcome, p) ← s.program.guardedSolve
    let s := { s with program := p }
    if p.options.dumpIntermediate && !canDump then return (.error .dump, s)
    else return (.ok outcome, ← s.refresh.mapError .fault)
  else .ok (.error .notBuilt, s)

/-- Edits the program and makes the diagnostics anew. -/
def guardedEdit (s : Session) (f : Program → Except Breach (Except SessionError (Bool × Program))) :
    Except Breach (Except SessionError Bool × Session) :=
  if s.built then do
    match ← f s.program with
    | .ok (changed, p) => return (.ok changed, ← { s with program := p }.refresh.mapError .fault)
    | .error e => return (.error e, s)
  else .ok (.error .notBuilt, s)

/-- The answer to a request, and the session after it. -/
def guardedRespond (s : Session) : Request → Except Breach (Except SessionError Reply × Session)
  | .build => s.guardedBuild.map fun a => (a.1.map fun _ => .built, a.2)
  | .call (.solve canDump) => (s.guardedSolve canDump).map fun a => (a.1.map .solved, a.2)
  | .call (.makeNonWild key) => (s.guardedEdit (·.guardedMakeNonWild key)).map fun a => (a.1.map .edited, a.2)
  | .call (.invalidate key) => (s.guardedEdit (·.guardedInvalidate key)).map fun a => (a.1.map .edited, a.2)
  | .call (.restore key) => (s.guardedEdit (·.guardedRestore key)).map fun a => (a.1.map .edited, a.2)

/-- The answers to requests made one after the other, and the session after them. -/
def guardedRespondAll (s : Session) : List Request → Except Breach (List (Except SessionError Reply) × Session)
  | [] => .ok ([], s)
  | request :: requests => do
    let (reply, s) ← s.guardedRespond request
    let (replies, s) ← s.guardedRespondAll requests
    return (reply :: replies, s)

end Session

/-! ### Surveys pass -/

namespace Program

variable {p q : Program} {options : Options} {file : String} {i : Nat} {es : List Event} {stop : Option Stop}
  {key : AtomKey}

theorem Intact.booked (h : p.Intact) : p.store.Booked :=
  ⟨h.ready.indexed, fun _ _ hkey => h.lt_of_caused hkey, h.parts⟩

/-- Books in order pass, if there are numbers left. -/
theorem survey_eq (h : p.Intact) (hroom : p.store.Room) : p.survey = .ok p := by
  have hleft : (p.store.isExhausted || decide (Store.keyLimit ≤ p.store.arena.length)) = false :=
    Bool.or_eq_false_iff.2 ⟨decide_eq_false (Nat.not_le.2 hroom.atoms), decide_eq_false (Nat.not_le.2 hroom.constraints)⟩
  unfold survey
  rw [h.booked.survey, lookUp_eq h.filed, hleft]
  rfl

/-! ### Units -/

theorem guardedReplayEvents_eq (hp : Walks { options } p) (h : p.replayEvents file i es = (q, stop))
    (hroom : q.store.Room) : p.guardedReplayEvents file i es = .ok (q, stop) := by
  induction es generalizing p i with
  | nil => exact congrArg Except.ok h
  | cons e es ih =>
      unfold replayEvents at h
      simp only [guardedReplayEvents, guardedReplayEvent_eq hp, bind, Except.bind]
      cases he : p.replayEvent e with
      | error err =>
          rw [he] at h
          exact congrArg Except.ok h
      | ok m =>
          rw [he] at h
          have hm : Walks { options } m := hp.trans (Turn.event (step_of_replayEvent he)).walks
          have hrest : m.Walks q := by
            have hwalks := m.walks_replayEvents file (i + 1) es
            rwa [show m.replayEvents file (i + 1) es = (q, stop) from h] at hwalks
          have hsurvey := survey_eq hm.intact (hroom.of_spans hrest.grows.spans)
          simp only [hsurvey]
          exact ih hm h

theorem guardedVisit_eq {r : Recording} (hp : Walks { options } p) (h : p.visit r file = (q, stop))
    (hroom : q.store.Room) : p.guardedVisit r file = .ok (q, stop) := by
  unfold visit at h
  unfold guardedVisit
  split
  · rename_i u hu
    rw [hu] at h
    exact guardedReplayEvents_eq hp h hroom
  · rename_i hu
    rw [hu] at h
    exact congrArg Except.ok h

/-! ### Solutions and edits -/

theorem Changes.room (h : p.Changes q) (hroom : p.store.Room) : q.store.Room := by
  rcases h.eq with rfl | ⟨s, hs, rfl⟩
  · exact hroom
  · refine ⟨?_, ?_⟩
    · show s.nextKey < Store.keyLimit
      rw [hs.nextKey]
      exact hroom.atoms
    · show s.arena.length < Store.keyLimit
      rw [hs.arena]
      exact hroom.constraints

theorem Changes.spans (h : p.Changes q) : p.store.Spans q.store := by
  rcases h.eq with rfl | ⟨s, hs, rfl⟩
  · exact .refl _
  · exact hs.spans

theorem guardedLink_eq (hp : Walks { options } p) (hroom : p.link.store.Room) : p.guardedLink = .ok p.link := by
  unfold guardedLink
  rw [lookUp_eq hp.filed, imposing_eq p.store_link]
  exact survey_eq hp.intact_link hroom

theorem Changes.guardedRegroup_eq {s : Store} (h : p.Changes (p.withStore s).regroup) (hp : p.Intact)
    (hroom : p.store.Room) : p.guardedRegroup s = .ok (p.withStore s).regroup := by
  have hq : (p.withStore s).regroup.Intact := keptByCalls_intact.of_changes h hp
  have hs : s.Booked := hq.booked
  unfold guardedRegroup
  rw [hs.survey]
  exact Program.survey_eq hq (h.room hroom)

theorem guardedSolve_eq (hp : p.Intact) (hroom : p.store.Room) : p.guardedSolve = .ok p.solve := by
  have hregroup : p.guardedRegroup p.store.solve.2 = .ok (p.withStore p.store.solve.2).regroup :=
    Changes.guardedRegroup_eq .solve hp hroom
  unfold guardedSolve
  rw [hp.booked.surveyedSolve_eq]
  show (do return (p.store.solve.1, ← p.guardedRegroup p.store.solve.2)) = _
  rw [hregroup]
  rfl

theorem guardedIfKnown_eq {α : Type} {x : Except Breach α} {a : α}
    (h : p.ifKnown key a = .ok a → x = .ok a) : p.guardedIfKnown key x = .ok (p.ifKnown key a) := by
  unfold ifKnown at h
  unfold guardedIfKnown ifKnown
  split
  · rename_i hknown
    rw [h (if_pos hknown)]
    rfl
  · rfl

theorem guardedMakeNonWild_eq (hp : p.Intact) (hroom : p.store.Room) (key : AtomKey) :
    p.guardedMakeNonWild key = .ok (p.makeNonWild key) := by
  refine guardedIfKnown_eq fun hknown => ?_
  have hchanges : p.Changes (p.withStore (p.store.makeNonWild key (p.regionOf key)).2).regroup := .makeNonWild hknown
  have hregroup := hchanges.guardedRegroup_eq hp hroom
  rw [hp.booked.surveyedMakeNonWild_eq]
  generalize p.store.makeNonWild key (p.regionOf key) = a at hregroup
  show (do return (!a.1.isEmpty, ← p.guardedRegroup a.2)) = _
  rw [hregroup]
  rfl

theorem guardedInvalidate_eq (hp : p.Intact) (hroom : p.store.Room) (key : AtomKey) :
    p.guardedInvalidate key = .ok (p.invalidate key) := by
  refine guardedIfKnown_eq fun hknown => ?_
  have hchanges := Changes.invalidate hknown
  cases hroot : p.rootCauses.find key with
  | none => rfl
  | some root =>
      rw [hroot] at hchanges
      have hregroup := Changes.guardedRegroup_eq hchanges hp hroom
      have herase : p.store.guardedEraseAll (p.store.wildForcing root) =
          .ok ((p.store.wildForcing root).foldl Store.erase p.store) :=
        hp.booked.foldlM_erase fun _ hid => Store.lt_of_mem_wildForcing hid
      have hreason := (hp.booked.eraseAll (p.store.wildForcing root)).surveyedEraseReason_eq
        (((p.rootCauses.reason root).map (·.reason)).getD "")
      simp only [hp.booked.survey, herase, hreason, bind, Except.bind, hregroup]
      rfl

theorem guardedRestore_eq (hp : p.Intact) (hroom : p.store.Room) (key : AtomKey) :
    p.guardedRestore key = .ok (p.restore key) := by
  refine guardedIfKnown_eq fun hknown => ?_
  split
  · rfl
  · rename_i hsome
    have hchanges : p.Changes (p.withStore (p.store.restore key).reset.solve.2).regroup :=
      .restore (hknown.trans (congrArg Except.ok (if_neg hsome)))
    have hregroup := hchanges.guardedRegroup_eq hp hroom
    rw [hp.booked.surveyedRestore_eq]
    show (do return (true, ← p.guardedRegroup (p.store.restore key).reset.solve.2)) = _
    rw [hregroup]
    rfl

end Program

namespace Session

open Program (Walks Turn KeptThroughout exists_of_bind_eq_ok)

variable {s t : Session} {options : Options} {r : Recording} {p q : Program} {files : List String}
  {result : Except SessionError Unit} {request : Request} {reply : Except SessionError Reply}

/-! ### Requests -/

theorem guardedVisitAll_eq (hp : Walks { options } p) (h : visitAll r p files = .ok (result, q)) (hroom : q.store.Room) :
    guardedVisitAll r p files = .ok (result, q) := by
  induction files generalizing p with
  | nil => exact congrArg Except.ok (Except.ok.inj h)
  | cons file files ih =>
      obtain ⟨p₁, p₂, p₃, stop, henter, hvisit, hexit, hrest⟩ := visitAll_cons h
      have h₁ : Walks { options } p₁ := hp.trans (Turn.enter henter).walks
      have h₂ : p₁.Walks p₂ := by
        have hwalks := p₁.walks_visit r file
        rwa [hvisit] at hwalks
      have h₃ : p₂.Walks p₃ := (Turn.exit hexit).walks
      have hlast : p₃.Walks q := by
        rcases hrest with ⟨err, -, -, rfl⟩ | ⟨-, hrest⟩
        · exact .refl
        · exact walks_visitAll hrest
      have hguarded := Program.guardedVisit_eq h₁ hvisit (hroom.of_spans (h₃.trans hlast).grows.spans)
      rcases hrest with ⟨err, rfl, rfl, rfl⟩ | ⟨rfl, hrest⟩
      · simp only [guardedVisitAll, henter, hguarded, hexit, bind, Except.bind, Except.mapError, pure, Except.pure]
      · simp only [guardedVisitAll, henter, hguarded, hexit, bind, Except.bind, Except.mapError]
        exact ih ((h₁.trans h₂).trans h₃) hrest

theorem guardedBuild_eq (hs : s.built = false → Walks { options } s.program) (h : s.build = .ok (result, t))
    (hroom : t.program.store.Room) : s.guardedBuild = .ok (result, t) := by
  unfold build at h
  unfold guardedBuild
  split
  · rename_i hb
    rw [if_pos hb] at h
    exact congrArg Except.ok (Except.ok.inj h)
  · rename_i hb
    rw [if_neg hb] at h
    have hp : Walks { options } s.program := hs (Bool.eq_false_iff.2 hb)
    obtain ⟨⟨visited, p⟩, hvisit, h⟩ := exists_of_bind_eq_ok h
    cases visited with
    | error e =>
        obtain ⟨rfl, rfl⟩ := Prod.mk.inj (Except.ok.inj h)
        rw [guardedVisitAll_eq hp hvisit hroom]
        rfl
    | ok _ =>
        obtain ⟨rfl, rfl⟩ := Prod.mk.inj (Except.ok.inj h)
        have hlink := Program.guardedLink_eq (hp.trans (walks_visitAll hvisit)) hroom
        rw [guardedVisitAll_eq hp hvisit (hroom.of_spans p.grows_link.spans)]
        show (do return (Except.ok (), { s with program := ← p.guardedLink, built := true })) = _
        rw [hlink]
        rfl

/-- Making the diagnostics anew is all that can fault once a session is built. -/
theorem refresh_mapError {α : Type} (s : Session) (a : α) :
    (do return (a, ← s.refresh.mapError Breach.fault)) =
      (do return (a, ← s.refresh) : Except Fault (α × Session)).mapError Breach.fault := by
  cases s.refresh <;> rfl

theorem guardedSolve_eq (hs : s.built = true → s.program.Intact) (hroom : s.program.store.Room) (canDump : Bool) :
    s.guardedSolve canDump = (s.solve canDump).mapError .fault := by
  unfold guardedSolve solve
  split
  · rename_i hb
    rw [Program.guardedSolve_eq (hs hb) hroom]
    show (if (s.program.solve.2.options.dumpIntermediate && !canDump) = true then _ else _) = _
    simp only
    split
    · rfl
    · exact refresh_mapError _ _
  · rfl

theorem guardedEdit_eq {f : Program → Except Breach (Except SessionError (Bool × Program))}
    {g : Program → Except SessionError (Bool × Program)} (h : s.built = true → f s.program = .ok (g s.program)) :
    s.guardedEdit f = (s.edit g).mapError .fault := by
  unfold guardedEdit edit
  split
  · rename_i hb
    rw [h hb]
    generalize g s.program = answer
    rcases answer with e | ⟨changed, p⟩
    · rfl
    · exact refresh_mapError _ _
  · rfl

theorem Answers.spans (h : s.Answers request reply t) : s.program.store.Spans t.program.store := by
  cases h with
  | refused => exact .refl _
  | stopped _ hvisit => exact (walks_visitAll hvisit).grows.spans
  | @built p _ hvisit => exact ((walks_visitAll hvisit).grows.trans p.grows_link).spans
  | unwritten => exact (Program.Changes.solve).spans
  | refreshed _ _ hp ht =>
      rw [(refresh_frame ht).1]
      exact hp.spans

/-- **The guarded session gives the same answer**, if there are numbers left when it is given. -/
theorem guardedRespond_eq (hs : s.Satisfies r (Walks { options }) Program.Intact)
    (h : s.respond request = .ok (reply, t)) (hroom : t.program.store.Room) : s.guardedRespond request = .ok (reply, t) := by
  have hroom' : s.program.store.Room := hroom.of_spans (answers_respond h).spans
  have hmap : ∀ {α : Type} {x : Except Fault (Except SessionError α × Session)}
      {y : Except Breach (Except SessionError α × Session)} {g : α → Reply}, y = x.mapError .fault → x.map (fun a => (a.1.map g, a.2)) = .ok (reply, t) →
      y.map (fun a => (a.1.map g, a.2)) = .ok (reply, t) := by
    intro α x y g hxy hx
    obtain ⟨a, rfl, ha⟩ := exists_of_map_eq_ok hx
    rw [hxy, ← ha]
    rfl
  rcases request with _ | ⟨canDump | key | key | key⟩
  · obtain ⟨⟨result, u⟩, hbuild, ha⟩ := exists_of_map_eq_ok h
    obtain ⟨rfl, rfl⟩ := Prod.mk.inj ha
    rw [guardedRespond, guardedBuild_eq hs.unbuilt hbuild hroom]
    rfl
  · exact hmap (guardedSolve_eq hs.built hroom' canDump) h
  · exact hmap (guardedEdit_eq fun hb => Program.guardedMakeNonWild_eq (hs.built hb) hroom' key) h
  · exact hmap (guardedEdit_eq fun hb => Program.guardedInvalidate_eq (hs.built hb) hroom' key) h
  · exact hmap (guardedEdit_eq fun hb => Program.guardedRestore_eq (hs.built hb) hroom' key) h

theorem spans_respondAll {requests : List Request} {replies : List (Except SessionError Reply)}
    (h : s.respondAll requests = .ok (replies, t)) : s.program.store.Spans t.program.store :=
  respondAll_induction (S := fun u => s.program.store.Spans u.program.store)
    (fun _ _ _ _ ha hspans => hspans.trans ha.spans) (.refl _) h

/-- **The guarded session gives the same answers**, if there are numbers left in the end. -/
theorem guardedRespondAll_eq {requests : List Request} {replies : List (Except SessionError Reply)}
    (hs : s.Satisfies r (Walks { options }) Program.Intact) (h : s.respondAll requests = .ok (replies, t))
    (hroom : t.program.store.Room) : s.guardedRespondAll requests = .ok (replies, t) := by
  induction requests generalizing s replies with
  | nil => exact congrArg Except.ok (Except.ok.inj h)
  | cons request requests ih =>
      obtain ⟨⟨reply, u⟩, hu, h⟩ := exists_of_bind_eq_ok h
      obtain ⟨⟨rest, v⟩, hrest, h⟩ := exists_of_bind_eq_ok h
      obtain ⟨rfl, rfl⟩ := Prod.mk.inj (Except.ok.inj h)
      have hsatisfies := (answers_respond hu).satisfies (Program.keptThroughout_intact options r) hs
      have hfirst := guardedRespond_eq hs hu (hroom.of_spans (spans_respondAll hrest))
      simp only [guardedRespondAll, hfirst, ih hsatisfies hrest, bind, Except.bind, pure, Except.pure]

/-! ### Safety -/

/-- Counts of atoms are in the space of counts, if there are no more atoms than keys. -/
theorem fits_statistics (h : p.InStep) (hsize : p.store.atoms.size < Store.keyLimit) :
    (Statistics.ofProgram p).fits = true := by
  have htotal : (Statistics.ofProgram p).total.total < KindCounts.countLimit := by
    have hle : (Statistics.ofProgram p).total.total ≤ p.store.atoms.size := by
      rw [Statistics.total_total_ofProgram, h.countP_located, SortedMap.size_eq]
      exact List.countP_le_length
    exact Nat.lt_of_le_of_lt hle (Nat.lt_trans hsize (by decide))
  refine Bool.and_eq_true_iff.2 ⟨List.all_eq_true.2 fun c hc => decide_eq_true ?_, decide_eq_true htotal⟩
  exact Nat.lt_of_le_of_lt (Statistics.total_le_of_mem p hc) htotal

/-- Levels that are aligned from the inside are equally many, on both sides. -/
theorem length_aligned (a b : Object) : (a.atoms.drop (a.depth - min a.depth b.depth)).length = min a.depth b.depth := by
  have hdepth : a.atoms.length = a.depth := List.length_map _
  rw [List.length_drop, hdepth]
  omega

/-- **No session has anything to stop at, and units are always closed.**  Whatever a recording
says, if its places fit into the space of positions: any requests are answered, one after the
other, and after them no unit is open.  If by then there are fewer atoms and constraints than there
are numbers, the guarded session gives the same answers, the books that are left pass a survey, and
so does counting the atoms.  In a store that passes, the solver leaves out no constraint that is
counted as in force.  And objects of any depths can be aligned by their levels. -/
theorem respondAll_safe (options : Options) (hfits : ∀ l ∈ r.locations, l.Fits) (requests : List Request) :
    (∃ replies t, (start options r).respondAll requests = .ok (replies, t) ∧ t.program.unit = none ∧
      (t.program.store.atoms.size < Store.keyLimit - 1 → t.program.store.arena.length < Store.keyLimit - 1 →
        (start options r).guardedRespondAll requests = .ok (replies, t) ∧ t.program.survey = .ok t.program ∧
        (Statistics.ofProgram t.program).fits = true)) ∧
    (∀ s : Store, s.survey = .ok () →
      (∀ key a, s.atoms.get? key = some a → (s.formulasAt key).map Prod.fst = a.active.toList) ∧
        s.activeFormulas.map Prod.fst = s.active) ∧
    ∀ a b : Object, (a.atoms.drop (a.depth - min a.depth b.depth)).length = min a.depth b.depth ∧
      (b.atoms.drop (b.depth - min a.depth b.depth)).length = min a.depth b.depth := by
  refine ⟨?_, fun s hs => Store.formulas_of_survey hs,
    fun a b => ⟨length_aligned a b, by rw [Nat.min_comm]; exact length_aligned b a⟩⟩
  have hstart : ∀ {P Q : Program → Prop}, KeptThroughout options r P Q → (start options r).Satisfies r P Q :=
    fun hP => ⟨rfl, fun _ => hP.start, fun hb => absurd hb Bool.false_ne_true⟩
  obtain ⟨replies, t, ht, hunit⟩ :=
    exists_respondAll hfits (hstart (Program.keptThroughout_cites options hfits)) rfl requests
  refine ⟨replies, t, ht, hunit, fun hatoms hconstraints => ?_⟩
  have hkept := satisfies_respondAll (Program.keptThroughout_intact options r) ht
  have hintact : t.program.Intact := by
    cases hb : t.built with
    | true => exact hkept.built hb
    | false => exact (hkept.unbuilt hb).intact
  have hroom : t.program.store.Room := by
    refine ⟨?_, Nat.lt_of_lt_of_le hconstraints (Nat.sub_le _ _)⟩
    rw [← hintact.packed.size_eq]
    exact Nat.lt_of_lt_of_le hatoms (Nat.sub_le _ _)
  exact ⟨guardedRespondAll_eq (hstart (Program.keptThroughout_intact options r)) ht hroom,
    Program.survey_eq hintact hroom, fits_statistics (inStep_respondAll ht) (Nat.lt_of_lt_of_le hatoms (Nat.sub_le _ _))⟩

/-- A file is visited twice, a global is declared with clashing types, and a function is called of
which nothing is known. -/
def ragged : Recording where
  units := [
    { file := "a.c"
      events := [
        .declare 0 { localPointer "g" 1 with kind := .global }, .declare 1 (localPointer "p" 2),
        .call "f" none [some 1, none] none none ⟨"a.c", 3, 1, none⟩, .wild 1 ⟨"cast away", none⟩] },
    { file := "b.c"
      events := [
        .declare 0
          { name := "g", location := ⟨"b.c", 1, 1, none⟩, type := .scalar "int" .integer, kind := .global }] },
    { file := "a.c", events := [] }]

/-- The same, with a unit that uses a node before it is declared. -/
def torn : Recording where
  units := ragged.units ++ [
    { file := "c.c"
      events := [
        .declare 0 { localPointer "q" 1 with location := ⟨"c.c", 1, 1, none⟩ }, .assign 0 7 none] }]

/-- Requests that are refused among some that are not. -/
def raggedRequests : List Request := [
  .call (.solve true), .build, .build, .call (.solve true), .call (.makeNonWild 1), .call (.invalidate 99),
  .call (.restore 1)]

/-- The one recording is built and edited, and building the other is given up, with no unit left
open. -/
theorem ragged_safe :
    (∃ replies, (start {} ragged).guardedRespondAll raggedRequests =
      .ok (replies, (start {} ragged).afterAll raggedRequests)) ∧
    ((start {} ragged).afterAll raggedRequests).built = true ∧
    ((start {} ragged).afterAll raggedRequests).program.unit = none ∧
    (Statistics.ofProgram ((start {} ragged).afterAll raggedRequests).program).fits = true ∧
    (∃ replies, (start {} torn).guardedRespondAll [.build, .build] =
      .ok (replies, (start {} torn).afterAll [.build, .build])) ∧
    ((start {} torn).afterAll [.build, .build]).built = false ∧
    ((start {} torn).afterAll [.build, .build]).program.unit = none := by
  obtain ⟨⟨replies, t, ht, hunit, hguarded⟩, -⟩ := respondAll_safe (r := ragged) {} (by decide +kernel) raggedRequests
  obtain ⟨⟨replies', t', ht', hunit', hguarded'⟩, -⟩ :=
    respondAll_safe (r := torn) {} (by decide +kernel) [.build, .build]
  obtain rfl := afterAll_eq ht
  obtain rfl := afterAll_eq ht'
  obtain ⟨hrun, -, hfits⟩ := hguarded (by decide +kernel) (by decide +kernel)
  obtain ⟨hrun', -, -⟩ := hguarded' (by decide +kernel) (by decide +kernel)
  exact ⟨⟨replies, hrun⟩, by decide +kernel, hunit, hfits, ⟨replies', hrun'⟩, by decide +kernel, hunit'⟩

end Session

end PointerKinds
