/-
The diagnostics mirror the program, or are held back.

What a session holds as its diagnostics is made of its program, and made anew after every
change.  Until a session is built nothing is grouped, however far a build that failed came,
so there is nothing to make anew; and a request that is refused changes nothing.  One request
changes the program and then gives up before the diagnostics are made: a solution whose
constraints cannot be written out.  From then on the diagnostics are those of the session
before it, until another request has them made.
-/
import Mathlib.Data.List.Induction
import PointerKinds.Proofs.Session.Requests

namespace PointerKinds

namespace Program

variable {p q : Program}

/-- While nothing is grouped there is nothing to report. -/
theorem diagnostics_wildReport_of_ungrouped (h : p.rootCauses = {}) : p.wildReport.diagnostics = [] := by
  unfold WildReport.diagnostics wildReport
  rw [h]
  rfl

/-- Visiting and linking group nothing, and calls do not change the options. -/
theorem keptThroughout_ungrouped (options : Options) (r : Recording) :
    KeptThroughout options r (fun p => p.rootCauses = {} ∧ p.options = options) (·.options = options) where
  start := ⟨rfl, rfl⟩
  enter _ _ _ h hp := by
    have hext := (Turn.enter h).extends
    exact ⟨hext.rootCauses.trans hp.1, hext.options.trans hp.2⟩
  event _ _ _ _ _ _ h hp := ⟨h.extends.rootCauses.trans hp.1, h.extends.options.trans hp.2⟩
  exit _ _ h hp := by
    have hext := (Turn.exit h).extends
    exact ⟨hext.rootCauses.trans hp.1, hext.options.trans hp.2⟩
  link p hp := p.relinks_link.options.trans hp.2
  calls := keptByCalls_of_akin fun _ _ _ hp => hp

end Program

namespace Session

open Program (exists_of_bind_eq_ok)

variable {s t : Session} {options : Options} {r : Recording}

/-- Making the diagnostics anew would change nothing. -/
def Mirrors (s : Session) : Prop := s.refresh = .ok s

theorem Mirrors.exists_populate (h : s.Mirrors) : ∃ added,
    Diagnostics.populate (∅ : SortedMap String (List Diagnostic)) s.program.options.maxNotes s.program.wildReport =
      .ok (s.diagnostics, added) := by
  obtain ⟨⟨ds, added⟩, hds, h⟩ := exists_of_bind_eq_ok h
  exact ⟨added, hds.trans (congrArg (fun t => Except.ok (t.diagnostics, added)) (Except.ok.inj h))⟩

/-- The diagnostics are what clearing them and adding those of the program would lead to. -/
theorem mirrors_iff : s.Mirrors ↔
    (Diagnostics.populate (∅ : SortedMap String (List Diagnostic)) s.program.options.maxNotes
      s.program.wildReport).map Prod.fst = .ok s.diagnostics := by
  refine ⟨fun h => ?_, fun h => ?_⟩
  · obtain ⟨added, hds⟩ := h.exists_populate
    rw [hds]
    rfl
  · unfold Mirrors refresh
    generalize Diagnostics.populate _ _ _ = result at h
    cases result with
    | error => exact nomatch h
    | ok made =>
        exact congrArg (fun ds => Except.ok { s with diagnostics := ds }) (Except.ok.inj h)

theorem Mirrors.of_ungrouped (hcauses : s.program.rootCauses = {})
    (hdiagnostics : s.diagnostics = (∅ : SortedMap String (List Diagnostic))) : s.Mirrors := by
  rw [mirrors_iff, hdiagnostics]
  unfold Diagnostics.populate
  simp only [Program.diagnostics_wildReport_of_ungrouped hcauses]
  rfl

theorem Mirrors.of_refresh (h : s.refresh = .ok t) : t.Mirrors := refresh_refresh h

/-- Until a session is built it has no diagnostics. -/
theorem Answers.undiagnosed {request : Request} {reply : Except SessionError Reply} (h : s.Answers request reply t)
    (hs : s.built = false → s.diagnostics = (∅ : SortedMap String (List Diagnostic))) :
    t.built = false → t.diagnostics = (∅ : SortedMap String (List Diagnostic)) := by
  intro hbuilt
  cases h with
  | refused | stopped => exact hs hbuilt
  | built => exact nomatch hbuilt
  | unwritten hb => exact nomatch hb.symm.trans hbuilt
  | refreshed hb _ _ ht => exact nomatch (((refresh_frame ht).2.trans hb).symm.trans hbuilt)

/-- A session whose diagnostics are those of an earlier moment, when they mirrored it: then it
was solved and the solution could not be written out, and nothing since has had them made anew.
All that has happened to its program since is that it was solved, perhaps again and again. -/
inductive HeldBack (options : Options) (r : Recording) (requests : List Request)
    (replies : List (Except SessionError Reply)) (t : Session) : Prop
  | intro {before since : List Request} {earlier later : List (Except SessionError Reply)} {u : Session} {n : Nat}
      (hdump : options.dumpIntermediate = true)
      (hrequests : requests = before ++ .call (.solve false) :: since)
      (hreplies : replies = earlier ++ .error .dump :: later)
      (hbefore : (start options r).respondAll before = .ok (earlier, u)) (hbuilt : u.built = true)
      (hmirrors : u.Mirrors) (hdiagnostics : t.diagnostics = u.diagnostics)
      (hprogram : t.program = (fun p => p.solve.2)^[n + 1] u.program)
      (hlater : ∀ reply ∈ later, refreshes reply = false)

/-- Another request that changes nothing but, at most, solves once more. -/
theorem HeldBack.concat {requests : List Request} {replies : List (Except SessionError Reply)} {request : Request}
    {reply : Except SessionError Reply} (h : HeldBack options r requests replies s)
    (hreply : refreshes reply = false) (hdiagnostics : t.diagnostics = s.diagnostics)
    (hprogram : t.program = s.program ∨ t.program = s.program.solve.2) :
    HeldBack options r (requests ++ [request]) (replies ++ [reply]) t := by
  obtain @⟨before, since, earlier, later, u, n, hdump, rfl, rfl, hbefore, hbuilt, hmirrors, hheld, hsolved, hlater⟩ := h
  have hrequests : before ++ .call (.solve false) :: since ++ [request] =
      before ++ .call (.solve false) :: (since ++ [request]) := by
    rw [List.append_assoc, List.cons_append]
  have hreplies : earlier ++ .error .dump :: later ++ [reply] = earlier ++ .error .dump :: (later ++ [reply]) := by
    rw [List.append_assoc, List.cons_append]
  have hlater' : ∀ reply' ∈ later ++ [reply], refreshes reply' = false :=
    List.forall_mem_append.2 ⟨hlater, List.forall_mem_singleton.2 hreply⟩
  rcases hprogram with hprogram | hprogram
  · exact .intro hdump hrequests hreplies hbefore hbuilt hmirrors (hdiagnostics.trans hheld)
      (hprogram.trans hsolved) hlater'
  · refine .intro (n := n + 1) hdump hrequests hreplies hbefore hbuilt hmirrors (hdiagnostics.trans hheld) ?_ hlater'
    rw [hprogram, hsolved, Function.iterate_succ_apply' _ (n + 1)]

/-- **Diagnostics mirror the program unless they are held back.**  After any requests on any
session, whether they were granted or refused, making the diagnostics anew would change
nothing; or a solution could not be written out, no later request was a solution or an edit
that succeeded, and the diagnostics are those that mirrored the session before that solution. -/
theorem mirrors_or_heldBack {requests : List Request} {replies : List (Except SessionError Reply)}
    (h : (start options r).respondAll requests = .ok (replies, t)) :
    t.Mirrors ∨ HeldBack options r requests replies t := by
  induction requests using List.reverseRecOn generalizing replies t with
  | nil =>
      obtain ⟨-, rfl⟩ := Prod.mk.inj (Except.ok.inj h)
      exact .inl (.of_ungrouped rfl rfl)
  | append_singleton requests request ih =>
      obtain ⟨earlier, later, u, hbefore, hlast, rfl⟩ := respondAll_append h
      obtain ⟨⟨reply, v⟩, hreply, hlast⟩ := exists_of_bind_eq_ok hlast
      obtain ⟨rfl, rfl⟩ := Prod.mk.inj (Except.ok.inj hlast)
      have hkept := satisfies_respondAll (Program.keptThroughout_ungrouped options r) hbefore
      have hnone : u.built = false → u.diagnostics = (∅ : SortedMap String (List Diagnostic)) :=
        respondAll_induction (fun _ _ _ _ ha => ha.undiagnosed) (fun _ => rfl) hbefore
      cases answers_respond hreply with
      | refused he =>
          refine (ih hbefore).imp id fun hheld => hheld.concat rfl rfl (.inl rfl)
      | stopped hbuilt hvisit =>
          have hcauses := (walks_visitAll hvisit).extends.rootCauses.trans (hkept.unbuilt hbuilt).1
          exact .inl (.of_ungrouped hcauses (hnone hbuilt))
      | @built p hbuilt hvisit =>
          have hcauses := (walks_visitAll hvisit).extends.rootCauses.trans (hkept.unbuilt hbuilt).1
          exact .inl (.of_ungrouped (p.relinks_link.rootCauses.trans hcauses) (hnone hbuilt))
      | unwritten hbuilt hdump =>
          refine .inr ((ih hbefore).elim (fun hmirrors => ?_) fun hheld => hheld.concat rfl rfl (.inr rfl))
          have hoptions := hkept.built hbuilt
          exact .intro (n := 0) (hoptions ▸ hdump) rfl rfl hbefore hbuilt hmirrors rfl rfl (List.forall_mem_nil _)
      | refreshed hbuilt hrefreshes hp ht => exact .inl (.of_refresh ht)

/-! ### A solution that cannot be written out -/

/-- The session after some requests, or as it was if they fault. -/
def afterAll (s : Session) (requests : List Request) : Session :=
  ((s.respondAll requests).toOption.map (·.2)).getD s

theorem afterAll_eq {requests : List Request} {replies : List (Except SessionError Reply)}
    (h : s.respondAll requests = .ok (replies, t)) : s.afterAll requests = t := by
  unfold afterAll
  rw [h]
  rfl

theorem respondAll_eq_afterAll {requests : List Request} {replies : List (Except SessionError Reply)}
    (h : (s.respondAll requests).toOption.map (·.1) = some replies) :
    s.respondAll requests = .ok (replies, s.afterAll requests) := by
  unfold afterAll
  cases hrun : s.respondAll requests with
  | error fault =>
      rw [hrun] at h
      exact nomatch h
  | ok answer =>
      rw [hrun] at h
      rw [← Option.some.inj h]
      rfl

/-- One unchecked pointer, in a session that writes its constraints out. -/
def lonePointer : Session :=
  start { dumpIntermediate := true }
    { units := [{ file := "a.c", events := [.declare 0 (localPointer "p" 1), .wild 0 ⟨"why", none⟩] }] }

/-- The pointer is unchecked, and the session says nothing about it. -/
theorem lonePointer_unmirrored :
    lonePointer.respondAll [.build, .call (.solve false)] =
      .ok ([.ok .built, .error .dump], lonePointer.afterAll [.build, .call (.solve false)]) ∧
    (lonePointer.afterAll [.build, .call (.solve false)]).program.store.value 0 = .wild ∧
    (lonePointer.afterAll [.build, .call (.solve false)]).diagnostics = (∅ : SortedMap String (List Diagnostic)) ∧
    ¬ (lonePointer.afterAll [.build, .call (.solve false)]).Mirrors := by
  refine ⟨respondAll_eq_afterAll rfl, by decide +kernel, by decide +kernel, ?_⟩
  rw [mirrors_iff]
  decide +kernel

/-- Requests that are refused do not help. -/
theorem lonePointer_heldBack :
    lonePointer.respondAll [.build, .call (.solve false), .call (.makeNonWild 7), .build] =
      .ok ([.ok .built, .error .dump, .error (.unknownAtom 7), .error .alreadyBuilt],
        lonePointer.afterAll [.build, .call (.solve false), .call (.makeNonWild 7), .build]) ∧
    HeldBack { dumpIntermediate := true } lonePointer.recording
      [.build, .call (.solve false), .call (.makeNonWild 7), .build]
      [.ok .built, .error .dump, .error (.unknownAtom 7), .error .alreadyBuilt]
      (lonePointer.afterAll [.build, .call (.solve false), .call (.makeNonWild 7), .build]) := by
  have hrun : lonePointer.respondAll [.build, .call (.solve false), .call (.makeNonWild 7), .build] = _ :=
    respondAll_eq_afterAll rfl
  refine ⟨hrun, (mirrors_or_heldBack hrun).resolve_left ?_⟩
  rw [mirrors_iff]
  decide +kernel

end Session

end PointerKinds
