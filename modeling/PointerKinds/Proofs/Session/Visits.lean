/-
Which events a build replays.

A build asks a recording for the files of its units and visits them in order, and whoever
visits a file looks its unit up by name.  So what is replayed for a unit are the events of the
first unit of its file.  While a file has one unit, or units of the same events, these are its
own; where a file has several, the first is replayed as often as there are, and what the others
say is lost.

Both sides are told apart from each other: `Recording.replay` goes through the units and hands
each its own events, and knows nothing of names.  A build is then the replay of another
recording, `asVisited`, and it comes to its end exactly if that replay does.
-/
import PointerKinds.Proofs.Session.Reachability

namespace PointerKinds

namespace Program

variable {p q : Program} {file : String} {i : Nat} {es : List Event} {r : Recording} {u : RecordedUnit}

/-- A unit is opened, its own events are replayed one after the other, and it is closed. -/
def visitUnit (p : Program) (u : RecordedUnit) : Except EventError Program := do
  let p ← (p.enter u.file).mapError .fault
  let p ← u.events.foldlM replayEvent p
  p.exit.mapError .fault

theorem mapError_eq_ok_iff {ε ε' α : Type} {x : Except ε α} {f : ε → ε'} {a : α} :
    x.mapError f = .ok a ↔ x = .ok a := by
  cases x <;> simp [Except.mapError]

theorem bind_eq_ok_iff {ε α β : Type} {x : Except ε α} {f : α → Except ε β} {b : β} :
    (x >>= f) = .ok b ↔ ∃ a, x = .ok a ∧ f a = .ok b := by
  refine ⟨exists_of_bind_eq_ok, ?_⟩
  rintro ⟨a, rfl, h⟩
  exact h

theorem visitUnit_eq_ok_iff :
    p.visitUnit u = .ok q ↔ ∃ p₁ p₂, p.enter u.file = .ok p₁ ∧ u.events.foldlM replayEvent p₁ = .ok p₂ ∧
      p₂.exit = .ok q := by
  simp only [visitUnit, bind_eq_ok_iff, mapError_eq_ok_iff, exists_and_left]

/-- Events are all replayed exactly if each is replayed into what those before it made. -/
theorem replayEvents_eq_none_iff : p.replayEvents file i es = (q, none) ↔ es.foldlM replayEvent p = .ok q := by
  induction es generalizing p i with
  | nil => exact ⟨fun h => congrArg _ (Prod.mk.inj h).1, fun h => congrArg (·, none) (Except.ok.inj h)⟩
  | cons e es ih =>
      rw [List.foldlM_cons, replayEvents]
      cases p.replayEvent e with
      | error err =>
          constructor
          · exact fun h => absurd (Prod.mk.inj h).2 (Option.some_ne_none _)
          · intro h
            cases h
      | ok p' => exact ih

end Program

namespace Recording

variable {r : Recording} {u : RecordedUnit} {options : Options}

/-- What the units of a recording come to: each is visited with its own events, in order, and
the program is linked in the end. -/
def replay (r : Recording) (options : Options) : Except EventError Program :=
  (r.units.foldlM Program.visitUnit { options }).map Program.link

/-- The unit whose events are replayed for a unit. -/
def firstOf (r : Recording) (u : RecordedUnit) : RecordedUnit := (r.unitOf? u.file).getD u

/-- Every unit gives way to the first one of its file. -/
def asVisited (r : Recording) : Recording := ⟨r.units.map r.firstOf⟩

/-- Every unit of a recording has a first one of its file. -/
theorem unitOf?_file (hu : u ∈ r.units) :
    r.unitOf? u.file = some (r.firstOf u) ∧ (r.firstOf u).file = u.file ∧ r.firstOf u ∈ r.units := by
  cases hfirst : r.unitOf? u.file with
  | none => exact absurd BEq.rfl (List.find?_eq_none.1 hfirst u hu)
  | some w =>
      have hw : r.firstOf u = w := by
        unfold firstOf
        rw [hfirst, Option.getD_some]
      have hfile := List.find?_some hfirst
      rw [hw]
      exact ⟨rfl, LawfulBEq.eq_of_beq hfile, List.mem_of_find?_eq_some hfirst⟩

/-- Every unit is replayed with its own events exactly if no file has two units that differ. -/
theorem asVisited_eq_self_iff (r : Recording) :
    r.asVisited = r ↔ ∀ u ∈ r.units, ∀ w ∈ r.units, u.file = w.file → u = w := by
  have hunits : r.asVisited = r ↔ r.units.map r.firstOf = r.units.map id := by
    rw [List.map_id]
    exact ⟨congrArg units, congrArg mk⟩
  rw [hunits, List.map_eq_map_iff]
  constructor
  · intro h u hu w hw hfile
    have hfirst : r.firstOf u = r.firstOf w := by
      unfold firstOf
      rw [hfile, (unitOf?_file hw).1, Option.getD_some, Option.getD_some]
    calc
      u = r.firstOf u := (h u hu).symm
      _ = r.firstOf w := hfirst
      _ = w := h w hw
  · intro h u hu
    obtain ⟨-, hfile, hmem⟩ := unitOf?_file hu
    exact h _ hmem u hu hfile

end Recording

namespace Session

open Program (visitUnit bind_eq_ok_iff)

variable {s : Session} {options : Options} {r : Recording} {p q : Program} {us : List RecordedUnit}

/-- Visiting files is visiting the first units of these files. -/
theorem visitAll_eq_ok_iff (hus : ∀ u ∈ us, u ∈ r.units) :
    visitAll r p (us.map (·.file)) = .ok (.ok (), q) ↔ (us.map r.firstOf).foldlM visitUnit p = .ok q := by
  induction us generalizing p with
  | nil => exact ⟨fun h => congrArg _ (Prod.mk.inj (Except.ok.inj h)).2, fun h => by rw [← Except.ok.inj h]; rfl⟩
  | cons u us ih =>
      obtain ⟨hu, hus⟩ := List.forall_mem_cons.1 hus
      obtain ⟨hfirst, hfile, -⟩ := Recording.unitOf?_file hu
      have hvisit : ∀ {p₁ p₂ : Program}, p₁.visit r u.file = (p₂, none) ↔
          (r.firstOf u).events.foldlM Program.replayEvent p₁ = .ok p₂ := by
        intro p₁ p₂
        rw [Program.visit, hfirst]
        exact Program.replayEvents_eq_none_iff
      simp only [List.map_cons, List.foldlM_cons, bind_eq_ok_iff, Program.visitUnit_eq_ok_iff, ← ih hus, ← hvisit,
        hfile]
      constructor
      · intro h
        obtain ⟨p₁, p₂, p₃, stop, henter, hvisited, hexit, ⟨err, -, herr, -⟩ | ⟨rfl, hrest⟩⟩ := visitAll_cons h
        · exact nomatch herr
        · exact ⟨p₃, ⟨p₁, p₂, henter, hvisited, hexit⟩, hrest⟩
      · rintro ⟨p₃, ⟨p₁, p₂, henter, hvisited, hexit⟩, hrest⟩
        rw [visitAll_cons_of_visit henter hvisited hexit]
        exact hrest

theorem replay_asVisited_eq_ok_iff :
    r.asVisited.replay options = .ok q ↔ ∃ p, visitAll r { options } r.files = .ok (.ok (), p) ∧ p.link = q := by
  unfold Recording.replay
  rw [show visitAll r { options } r.files = visitAll r { options } (r.units.map (·.file)) from rfl]
  simp only [visitAll_eq_ok_iff fun _ hu => hu]
  constructor
  · exact exists_of_map_eq_ok
  · rintro ⟨p, hp, rfl⟩
    rw [show r.asVisited.units = r.units.map r.firstOf from rfl, hp]
    rfl

/-- **A build replays the first unit of each file, once for each unit of the file.**  It
succeeds exactly if these can be replayed, and the program is what they come to.  These are the
recorded units, each with its own events, exactly if no file has two units that differ. -/
theorem build_replays_asVisited (options : Options) (r : Recording) (s : Session) :
    ((start options r).build = .ok (.ok (), s) ↔
      ∃ p, r.asVisited.replay options = .ok p ∧ s = { start options r with program := p, built := true }) ∧
    (r.asVisited = r ↔ ∀ u ∈ r.units, ∀ w ∈ r.units, u.file = w.file → u = w) := by
  refine ⟨?_, r.asVisited_eq_self_iff⟩
  simp only [replay_asVisited_eq_ok_iff]
  constructor
  · intro h
    unfold build at h
    rw [if_neg (show ¬ (start options r).built = true from Bool.false_ne_true)] at h
    obtain ⟨⟨result, p⟩, hvisit, h⟩ := Program.exists_of_bind_eq_ok h
    cases result with
    | error e => exact nomatch h
    | ok _ => exact ⟨p.link, ⟨p, hvisit, rfl⟩, (Prod.mk.inj (Except.ok.inj h)).2.symm⟩
  · rintro ⟨_, ⟨p, hvisit, rfl⟩, rfl⟩
    unfold build
    rw [if_neg (show ¬ (start options r).built = true from Bool.false_ne_true)]
    rw [show visitAll (start options r).recording (start options r).program (start options r).recording.files =
      .ok (.ok (), p) from hvisit]
    rfl

/-- A file with two units: the first declares a pointer, the second another one that is used in a
way that cannot be checked. -/
def splitFile : Recording where
  units := [
    { file := "a.c", events := [.declare 0 (localPointer "p" 1)] },
    { file := "a.c", events := [.declare 0 (localPointer "q" 2), .wild 0 ⟨"why", none⟩] }]

/-- What the two units come to, each with its own events. -/
def splitReplayed : Program := (splitFile.replay {}).toOption.getD {}

/-- The events of the second unit are lost: the build registers one atom instead of two. -/
theorem splitFile_lost :
    (start {} splitFile).build = .ok (.ok (), ofRecording splitFile) ∧
    splitFile.replay {} = .ok splitReplayed ∧
    (ofRecording splitFile).program.store.nextKey = 1 ∧ splitReplayed.store.nextKey = 2 ∧
    (ofRecording splitFile).program ≠ splitReplayed := by
  have hbuilt : (ofRecording splitFile).program.store.nextKey = 1 := rfl
  have hreplayed : splitReplayed.store.nextKey = 2 := rfl
  refine ⟨rfl, rfl, hbuilt, hreplayed, fun h => ?_⟩
  rw [h, hreplayed] at hbuilt
  exact absurd hbuilt (by decide)

end Session

end PointerKinds
