/-
Any requests on a session, in any order.

A request builds a session, solves it or edits it; whatever else can be asked of a session
only reads.  What a request comes to is told once: it is refused and changes nothing, it is a
build that stopped or one that came to its end, a solution that could not be written out, or
a change after which the diagnostics were made anew.  So what visiting units, linking and
calls keep of a program, a session keeps through all requests, however many of them fail.
-/
import PointerKinds.Proofs.Session.Undo

namespace PointerKinds

namespace Store

variable {s : Store}

theorem akin_reset (s : Store) : s.Akin s.reset := ⟨rfl, rfl, rfl, id, fun _ => rfl⟩

theorem akin_solve (s : Store) : s.Akin s.solve.2 := akin_commit s _

theorem akin_eraseReason (s : Store) (reason : String) : s.Akin (s.eraseReason reason).2.2 :=
  ((Akin.foldl akin_erase _ s).trans (akin_reset _)).trans (akin_solve _)

end Store

namespace Program

variable {p q : Program} {P Q : Program → Prop} {options : Options} {r : Recording} {file : String} {i : Nat}
  {es : List Event}

/-- A program after a call that changed it. -/
inductive Changes (p : Program) : Program → Prop
  | solve : Changes p p.solve.2
  | makeNonWild {key : AtomKey} {changed : Bool} {q : Program} (h : p.makeNonWild key = .ok (changed, q)) : Changes p q
  | invalidate {key : AtomKey} {changed : Bool} {q : Program} (h : p.invalidate key = .ok (changed, q)) : Changes p q
  | restore {key : AtomKey} {changed : Bool} {q : Program} (h : p.restore key = .ok (changed, q)) : Changes p q

/-- **A call does nothing, or replaces the store by one of the same constraints, filters and
preferences and groups it anew.** -/
theorem Changes.eq (h : p.Changes q) : q = p ∨ ∃ s, p.store.Akin s ∧ q = (p.withStore s).regroup := by
  cases h with
  | solve => exact .inr ⟨_, p.store.akin_solve, rfl⟩
  | @makeNonWild key changed q h =>
      have he : _ = q := congrArg Prod.snd (ifKnown_eq_ok h)
      exact .inr ⟨_, p.store.akin_makeNonWild key (p.regionOf key), he.symm⟩
  | @invalidate key changed q h =>
      have he : _ = q := congrArg Prod.snd (ifKnown_eq_ok h)
      rw [← he]
      cases p.rootCauses.find key with
      | none => exact .inl rfl
      | some root =>
          exact .inr ⟨_, (Store.Akin.foldl Store.akin_erase _ _).trans (Store.akin_eraseReason _ _), rfl⟩
  | @restore key changed q h =>
      have he : _ = q := congrArg Prod.snd (ifKnown_eq_ok h)
      rw [← he]
      split
      · exact .inl rfl
      · exact .inr ⟨_, ((p.store.akin_restore key).trans (Store.akin_reset _)).trans (Store.akin_solve _), rfl⟩

theorem keptByCalls_of_changes (hP : ∀ p q, p.Changes q → P p → P q) : KeptByCalls P where
  solve p hp := hP p _ .solve hp
  makeNonWild p _ _ q hp h := hP p q (.makeNonWild h) hp
  invalidate p _ _ q hp h := hP p q (.invalidate h) hp
  restore p _ _ q hp h := hP p q (.restore h) hp

/-- What speaks of neither what was found out, nor what is suspended, nor how atoms are grouped,
every call keeps. -/
theorem keptByCalls_of_akin (hP : ∀ p s, p.store.Akin s → P p → P (p.withStore s).regroup) : KeptByCalls P :=
  keptByCalls_of_changes fun p q h hp => by
    rcases h.eq with rfl | ⟨s, hs, rfl⟩
    · exact hp
    · exact hP p s hs hp

theorem KeptByCalls.of_changes (hP : KeptByCalls P) (h : p.Changes q) (hp : P p) : P q := by
  cases h with
  | solve => exact hP.solve p hp
  | makeNonWild h => exact hP.makeNonWild p _ _ q hp h
  | invalidate h => exact hP.invalidate p _ _ q hp h
  | restore h => exact hP.restore p _ _ q hp h

/-- What a session keeps of its program: one property while the units of a recording are
visited, and another from linking on. -/
structure KeptThroughout (options : Options) (r : Recording) (P Q : Program → Prop) : Prop where
  start : P { options }
  enter : ∀ p q file, p.enter file = .ok q → P p → P q
  event : ∀ u ∈ r.units, ∀ e ∈ u.events, ∀ p q, p.Step e q → P p → P q
  exit : ∀ p q, p.exit = .ok q → P p → P q
  link : ∀ p, P p → Q p.link
  calls : KeptByCalls Q

/-- A property of what walks make of a program, if it does not matter which events they replay. -/
theorem keptThroughout_of_walks (hlink : ∀ p, Walks { options } p → Q p.link) (hcalls : KeptByCalls Q) :
    KeptThroughout options r (Walks { options }) Q where
  start := .refl
  enter _ _ _ h hp := hp.trans (Turn.enter h).walks
  event _ _ _ _ _ _ h hp := hp.trans (Turn.event h).walks
  exit _ _ h hp := hp.trans (Turn.exit h).walks
  link := hlink
  calls := hcalls

theorem replayEvents_keeps (hevent : ∀ e ∈ es, ∀ p q, p.Step e q → P p → P q) (hp : P p) :
    P (p.replayEvents file i es).1 := by
  induction es generalizing p i with
  | nil => exact hp
  | cons e es ih =>
      obtain ⟨he, hrest⟩ := List.forall_mem_cons.1 hevent
      unfold replayEvents
      split
      · rename_i q hq
        exact ih hrest (he p q (step_of_replayEvent hq) hp)
      · exact hp

theorem visit_keeps (hevent : ∀ u ∈ r.units, ∀ e ∈ u.events, ∀ p q, p.Step e q → P p → P q) (hp : P p) :
    P (p.visit r file).1 := by
  unfold visit
  split
  · rename_i u hu
    exact replayEvents_keeps (hevent u (List.mem_of_find?_eq_some hu)) hp
  · exact hp

theorem ne_dump_of_ifKnown {α : Type} {key : AtomKey} {a : α} {e : SessionError}
    (h : p.ifKnown key a = .error e) : e ≠ .dump := by
  unfold ifKnown at h
  split at h
  · exact nomatch h
  · rw [← Except.error.inj h]
    exact SessionError.noConfusion

end Program

namespace Session

open Program (KeptByCalls KeptThroughout Changes Walks exists_of_bind_eq_ok)

variable {s t u : Session} {options : Options} {r : Recording} {p q : Program} {files : List String}
  {P Q : Program → Prop} {result : Except SessionError Unit}

theorem visitAll_keeps (hP : KeptThroughout options r P Q) (hp : P p)
    (h : visitAll r p files = .ok (result, q)) : P q := by
  induction files generalizing p with
  | nil =>
      rw [← (Prod.mk.inj (Except.ok.inj h)).2]
      exact hp
  | cons file files ih =>
      obtain ⟨p₁, p₂, p₃, stop, henter, hvisit, hexit, hrest⟩ := visitAll_cons h
      have hvisited : P p₂ := by
        have hkept : P (p₁.visit r file).1 := Program.visit_keeps hP.event (hP.enter _ _ _ henter hp)
        rwa [hvisit] at hkept
      have hclosed := hP.exit _ _ hexit hvisited
      rcases hrest with ⟨err, -, -, rfl⟩ | ⟨-, hrest⟩
      · exact hclosed
      · exact ih hclosed hrest

/-- A visit that stopped says where and why. -/
theorem exists_of_visitAll_eq_error {err : SessionError} (h : visitAll r p files = .ok (.error err, q)) :
    ∃ file why, err = .replay file why := by
  induction files generalizing p with
  | nil => exact nomatch (Prod.mk.inj (Except.ok.inj h)).1
  | cons file files ih =>
      obtain ⟨p₁, p₂, p₃, stop, -, -, -, ⟨why, -, hresult, -⟩ | ⟨-, hrest⟩⟩ := visitAll_cons h
      · exact ⟨file, why, Except.error.inj hresult⟩
      · exact ih hrest

/-! ### Requests and replies -/

/-- A request that may change a session. -/
inductive Request where
  | build
  | call (c : Call)

/-- The answer to a request that was granted. -/
inductive Reply where
  | built
  | solved (outcome : Outcome)
  | edited (changed : Bool)

/-- The answer to a request, and the session after it. -/
def respond (s : Session) : Request → Except Fault (Except SessionError Reply × Session)
  | .build => s.build.map fun a => (a.1.map fun _ => .built, a.2)
  | .call (.solve canDump) => (s.solve canDump).map fun a => (a.1.map .solved, a.2)
  | .call (.makeNonWild key) => (s.makeNonWild key).map fun a => (a.1.map .edited, a.2)
  | .call (.invalidate key) => (s.invalidate key).map fun a => (a.1.map .edited, a.2)
  | .call (.restore key) => (s.restore key).map fun a => (a.1.map .edited, a.2)

/-- The answers to requests made one after the other, and the session after them. -/
def respondAll (s : Session) : List Request → Except Fault (List (Except SessionError Reply) × Session)
  | [] => .ok ([], s)
  | request :: requests => do
    let (reply, s) ← s.respond request
    let (replies, s) ← s.respondAll requests
    return (reply :: replies, s)

/-- The diagnostics were made anew before the answer was given. -/
def refreshes : Except SessionError Reply → Bool
  | .ok (.solved _) => true
  | .ok (.edited _) => true
  | _ => false

/-- What answering a request comes to. -/
inductive Answers (s : Session) : Request → Except SessionError Reply → Session → Prop
  | refused {request : Request} {e : SessionError} (he : e ≠ .dump) : Answers s request (.error e) s
  | stopped {file : String} {why : ReplayError} {p : Program} (hbuilt : s.built = false)
      (hvisit : visitAll s.recording s.program s.recording.files = .ok (.error (.replay file why), p)) :
      Answers s .build (.error (.replay file why)) { s with program := p }
  | built {p : Program} (hbuilt : s.built = false)
      (hvisit : visitAll s.recording s.program s.recording.files = .ok (.ok (), p)) :
      Answers s .build (.ok .built) { s with program := p.link, built := true }
  | unwritten (hbuilt : s.built = true) (hdump : s.program.options.dumpIntermediate = true) :
      Answers s (.call (.solve false)) (.error .dump) { s with program := s.program.solve.2 }
  | refreshed {c : Call} {reply : Except SessionError Reply} {p : Program} {t : Session}
      (hbuilt : s.built = true) (hreply : refreshes reply = true) (hp : s.program.Changes p)
      (ht : { s with program := p }.refresh = .ok t) : Answers s (.call c) reply t

theorem answers_build {reply : Except SessionError Reply} (h : s.respond .build = .ok (reply, t)) :
    s.Answers .build reply t := by
  unfold respond at h
  obtain ⟨⟨result, u⟩, hbuild, ha⟩ := exists_of_map_eq_ok h
  obtain ⟨rfl, rfl⟩ := Prod.mk.inj ha
  unfold build at hbuild
  by_cases hb : s.built = true
  · rw [if_pos hb] at hbuild
    obtain ⟨rfl, rfl⟩ := Prod.mk.inj (Except.ok.inj hbuild)
    exact .refused (by decide)
  · rw [if_neg hb] at hbuild
    have hunbuilt : s.built = false := Bool.eq_false_iff.2 hb
    obtain ⟨⟨visited, p⟩, hvisit, hbuild⟩ := exists_of_bind_eq_ok hbuild
    cases visited with
    | error e =>
        obtain ⟨rfl, rfl⟩ := Prod.mk.inj (Except.ok.inj hbuild)
        obtain ⟨file, why, rfl⟩ := exists_of_visitAll_eq_error hvisit
        exact .stopped hunbuilt hvisit
    | ok _ =>
        obtain ⟨rfl, rfl⟩ := Prod.mk.inj (Except.ok.inj hbuild)
        exact .built hunbuilt hvisit

theorem answers_solve {canDump : Bool} {reply : Except SessionError Reply}
    (h : s.respond (.call (.solve canDump)) = .ok (reply, t)) : s.Answers (.call (.solve canDump)) reply t := by
  unfold respond at h
  obtain ⟨⟨result, u⟩, hsolve, ha⟩ := exists_of_map_eq_ok h
  obtain ⟨rfl, rfl⟩ := Prod.mk.inj ha
  unfold solve at hsolve
  by_cases hb : s.built = true
  · rw [if_pos hb] at hsolve
    simp only at hsolve
    split at hsolve
    · rename_i hwrite
      obtain ⟨hdump, hcan⟩ := Bool.and_eq_true_iff.1 hwrite
      obtain rfl : canDump = false := by simpa using hcan
      obtain ⟨rfl, rfl⟩ := Prod.mk.inj (Except.ok.inj hsolve)
      exact .unwritten hb hdump
    · obtain ⟨v, hv, hsolve⟩ := exists_of_bind_eq_ok hsolve
      obtain ⟨rfl, rfl⟩ := Prod.mk.inj (Except.ok.inj hsolve)
      exact .refreshed hb rfl .solve hv
  · rw [if_neg hb] at hsolve
    obtain ⟨rfl, rfl⟩ := Prod.mk.inj (Except.ok.inj hsolve)
    exact .refused (by decide)

theorem answers_edit {c : Call} {f : Program → Except SessionError (Bool × Program)} {reply : Except SessionError Reply}
    (hknown : ∀ e, f s.program = .error e → e ≠ .dump)
    (hf : ∀ changed q, f s.program = .ok (changed, q) → s.program.Changes q)
    (h : (s.edit f).map (fun a => (a.1.map Reply.edited, a.2)) = .ok (reply, t)) : s.Answers (.call c) reply t := by
  obtain ⟨⟨answer, u⟩, hedit, ha⟩ := exists_of_map_eq_ok h
  obtain ⟨rfl, rfl⟩ := Prod.mk.inj ha
  by_cases hb : s.built = true
  · rcases edit_cases hb hedit with ⟨e, he, rfl, rfl⟩ | ⟨changed, p, hp, rfl, ht⟩
    · exact .refused (hknown e he)
    · exact .refreshed hb rfl (hf changed p hp) ht
  · unfold edit at hedit
    rw [if_neg hb] at hedit
    obtain ⟨rfl, rfl⟩ := Prod.mk.inj (Except.ok.inj hedit)
    exact .refused (by decide)

/-- **What a request comes to.** -/
theorem answers_respond {request : Request} {reply : Except SessionError Reply}
    (h : s.respond request = .ok (reply, t)) : s.Answers request reply t := by
  rcases request with _ | ⟨canDump | key | key | key⟩
  · exact answers_build h
  · exact answers_solve h
  · exact answers_edit (fun _ => Program.ne_dump_of_ifKnown) (fun _ _ => .makeNonWild) h
  · exact answers_edit (fun _ => Program.ne_dump_of_ifKnown) (fun _ _ => .invalidate) h
  · exact answers_edit (fun _ => Program.ne_dump_of_ifKnown) (fun _ _ => .restore) h

/-! ### Runs -/

theorem respondAll_append {requests requests' : List Request} {replies : List (Except SessionError Reply)}
    (h : s.respondAll (requests ++ requests') = .ok (replies, t)) :
    ∃ earlier later u, s.respondAll requests = .ok (earlier, u) ∧ u.respondAll requests' = .ok (later, t) ∧
      replies = earlier ++ later := by
  induction requests generalizing s replies with
  | nil => exact ⟨[], replies, s, rfl, h, rfl⟩
  | cons request requests ih =>
      obtain ⟨⟨reply, v⟩, hv, h⟩ := exists_of_bind_eq_ok h
      obtain ⟨⟨rest, w⟩, hrest, h⟩ := exists_of_bind_eq_ok h
      obtain ⟨rfl, rfl⟩ := Prod.mk.inj (Except.ok.inj h)
      obtain ⟨earlier, later, u, hearlier, hlater, rfl⟩ := ih hrest
      refine ⟨reply :: earlier, later, u, ?_, hlater, rfl⟩
      simp only [respondAll, hv, hearlier, bind, Except.bind, pure, Except.pure]

/-- What every request keeps of a session, a run of requests keeps. -/
theorem respondAll_induction {S : Session → Prop} {requests : List Request}
    {replies : List (Except SessionError Reply)}
    (hS : ∀ s request reply t, s.Answers request reply t → S s → S t) (hs : S s)
    (h : s.respondAll requests = .ok (replies, t)) : S t := by
  induction requests generalizing s replies with
  | nil =>
      obtain ⟨-, rfl⟩ := Prod.mk.inj (Except.ok.inj h)
      exact hs
  | cons request requests ih =>
      obtain ⟨⟨reply, v⟩, hv, h⟩ := exists_of_bind_eq_ok h
      obtain ⟨⟨rest, w⟩, hrest, h⟩ := exists_of_bind_eq_ok h
      obtain ⟨-, rfl⟩ := Prod.mk.inj (Except.ok.inj h)
      exact ih (hS s request reply v (answers_respond hv) hs) hrest

/-- A session of a recording whose program has one property until it is built, and another
from then on. -/
structure Satisfies (r : Recording) (P Q : Program → Prop) (s : Session) : Prop where
  recording : s.recording = r
  unbuilt : s.built = false → P s.program
  built : s.built = true → Q s.program

theorem Answers.satisfies {request : Request} {reply : Except SessionError Reply}
    (hP : KeptThroughout options r P Q) (h : s.Answers request reply t) (hs : s.Satisfies r P Q) :
    t.Satisfies r P Q := by
  cases h with
  | refused => exact hs
  | stopped hbuilt hvisit =>
      rw [hs.recording] at hvisit
      exact ⟨hs.recording, fun _ => visitAll_keeps hP (hs.unbuilt hbuilt) hvisit,
        fun hb => absurd (hbuilt.symm.trans hb) Bool.false_ne_true⟩
  | built hbuilt hvisit =>
      rw [hs.recording] at hvisit
      exact ⟨hs.recording, fun hb => absurd hb.symm Bool.false_ne_true,
        fun _ => hP.link _ (visitAll_keeps hP (hs.unbuilt hbuilt) hvisit)⟩
  | unwritten hbuilt =>
      exact ⟨hs.recording, fun hb => absurd (hb.symm.trans hbuilt) Bool.false_ne_true,
        fun _ => hP.calls.solve _ (hs.built hbuilt)⟩
  | refreshed hbuilt hreply hp ht =>
      obtain ⟨hprogram, hb⟩ := refresh_frame ht
      have hb : t.built = true := hb.trans hbuilt
      refine ⟨(recording_refresh ht).trans hs.recording, fun hb' => absurd (hb'.symm.trans hb) Bool.false_ne_true,
        fun _ => ?_⟩
      rw [hprogram]
      exact hP.calls.of_changes hp (hs.built hbuilt)

/-- **What is kept throughout, a session keeps through all requests.** -/
theorem satisfies_respondAll {requests : List Request} {replies : List (Except SessionError Reply)}
    (hP : KeptThroughout options r P Q) (h : (start options r).respondAll requests = .ok (replies, t)) :
    t.Satisfies r P Q :=
  respondAll_induction (fun _ _ _ _ ha hs => ha.satisfies hP hs)
    ⟨rfl, fun _ => hP.start, fun hb => absurd hb Bool.false_ne_true⟩ h

end Session

end PointerKinds
