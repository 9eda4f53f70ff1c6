/-
Through every edit of a session, exactly the reachable atoms are unchecked.

A session that was built, and then solved, is steady, and every call keeps it so.  That
an edit of one group keeps it so rests on how the program finds the group: by way of its
root, among the groups made of the store as it is.
-/
import PointerKinds.Proofs.Session.Building
import PointerKinds.Proofs.Solver.Edits

namespace PointerKinds

namespace Program

variable {p q : Program} {key x : AtomKey} {changed : Bool}

/-- A program between two edits: its store is steady and grouped. -/
structure Steady (p : Program) : Prop where
  store : p.store.Steady
  grouped : p.rootCauses = .ofStore p.store

theorem steady_regroup {s : Store} (p : Program) (h : s.Steady) : (p.withStore s).regroup.Steady where
  store := h
  grouped := rfl

/-- The region of an unchecked atom is its group. -/
theorem Steady.mem_regionOf (h : p.Steady) (hkey : p.store.value key = .wild) :
    x ∈ p.regionOf key ↔ (RootCauses.ofStore p.store).Same key x := by
  obtain ⟨group, hgroup, hmem⟩ := RootCauses.mem_group_ofStore (Store.mem_wildAtoms.2 hkey)
  unfold regionOf
  rw [h.grouped, hgroup, Option.getD_some, hmem]

theorem ifKnown_eq_ok {α : Type} {a b : α} (h : p.ifKnown key a = .ok b) : a = b := by
  unfold ifKnown at h
  split at h
  · exact Except.ok.inj h
  · exact nomatch h

/-- Every call that changes a program keeps a property. -/
structure KeptByCalls (P : Program → Prop) : Prop where
  solve : ∀ p, P p → P p.solve.2
  makeNonWild : ∀ p key changed q, P p → p.makeNonWild key = .ok (changed, q) → P q
  invalidate : ∀ p key changed q, P p → p.invalidate key = .ok (changed, q) → P q
  restore : ∀ p key changed q, P p → p.restore key = .ok (changed, q) → P q

theorem Steady.makeNonWild (h : p.Steady) (hq : p.makeNonWild key = .ok (changed, q)) : q.Steady := by
  have he : _ = q := congrArg Prod.snd (ifKnown_eq_ok hq)
  rw [← he]
  exact steady_regroup p (h.store.makeNonWild fun hkey x => h.mem_regionOf hkey)

/-- Invalidating a reason leaves a program alone or steady. -/
theorem invalidate_cases (hs : p.store.Indexed)
    (hdemand : ∀ id ∈ p.store.topLevel, ∀ f, p.store.formula? id = some f → f.IsDemand)
    (hq : p.invalidate key = .ok (changed, q)) : q = p ∨ q.Steady := by
  have he : _ = q := congrArg Prod.snd (ifKnown_eq_ok hq)
  rw [← he]
  cases p.rootCauses.find key with
  | none => exact .inl rfl
  | some root => exact .inr (steady_regroup p (Store.steady_eraseReason hs hdemand _ _))

/-- Restoring an atom leaves a program alone or steady. -/
theorem restore_cases (hs : p.store.Indexed)
    (hdemand : ∀ id ∈ p.store.topLevel, ∀ f, p.store.formula? id = some f → f.IsDemand)
    (hq : p.restore key = .ok (changed, q)) : q = p ∨ q.Steady := by
  have he : _ = q := congrArg Prod.snd (ifKnown_eq_ok hq)
  rw [← he]
  split
  · exact .inl rfl
  · exact .inr (steady_regroup p (Store.steady_restore hs hdemand key))

theorem keptByCalls_steady : KeptByCalls Steady where
  solve _ h := steady_regroup _ h.store.solve
  makeNonWild _ _ _ _ h hq := h.makeNonWild hq
  invalidate _ _ _ _ h hq := (invalidate_cases h.store.indexed h.store.demand hq).elim (· ▸ h) id
  restore _ _ _ _ h hq := (restore_cases h.store.indexed h.store.demand hq).elim (· ▸ h) id

end Program

/-- A call that solves a session or edits it. -/
inductive Call where
  | solve (canDump : Bool)
  | makeNonWild (key : AtomKey)
  | invalidate (key : AtomKey)
  | restore (key : AtomKey)

namespace Session

variable {s t : Session} {options : Options} {r : Recording}

/-- The session after a call, whatever the call answers. -/
def perform (s : Session) : Call → Except Fault Session
  | .solve canDump => (s.solve canDump).map (·.2)
  | .makeNonWild key => (s.makeNonWild key).map (·.2)
  | .invalidate key => (s.invalidate key).map (·.2)
  | .restore key => (s.restore key).map (·.2)

/-- The session after some calls, one after the other. -/
def performAll (s : Session) : List Call → Except Fault Session
  | [] => .ok s
  | c :: cs => s.perform c >>= (performAll · cs)

theorem exists_of_map_eq_ok {ε α β : Type} {x : Except ε α} {f : α → β} {b : β}
    (h : x.map f = .ok b) : ∃ a, x = .ok a ∧ f a = b := by
  cases x with
  | error e => exact nomatch h
  | ok a => exact ⟨a, rfl, Except.ok.inj h⟩

theorem refresh_frame (h : s.refresh = .ok t) : t.program = s.program ∧ t.built = s.built := by
  unfold refresh at h
  obtain ⟨ds, -, h⟩ := Program.exists_of_bind_eq_ok h
  rw [← Except.ok.inj h]
  exact ⟨rfl, rfl⟩

/-- Solving a built session solves its program, whether or not the solution could be
written out. -/
theorem program_solve {canDump : Bool} (hbuilt : s.built = true)
    (h : s.perform (.solve canDump) = .ok t) : t.program = s.program.solve.2 ∧ t.built = true := by
  unfold perform at h
  obtain ⟨answer, hsolve, ht⟩ := exists_of_map_eq_ok h
  unfold solve at hsolve
  rw [if_pos hbuilt] at hsolve
  simp only at hsolve
  split at hsolve
  · rw [← ht, ← Except.ok.inj hsolve]
    exact ⟨rfl, hbuilt⟩
  · obtain ⟨u, hu, hsolve⟩ := Program.exists_of_bind_eq_ok hsolve
    rw [← ht, ← Except.ok.inj hsolve]
    obtain ⟨hprogram, hb⟩ := refresh_frame hu
    exact ⟨hprogram, hb.trans hbuilt⟩

/-- An edit replaces the program of a built session by the edited one, or is refused and
leaves the session alone. -/
theorem program_edit {f : Program → Except SessionError (Bool × Program)}
    (hbuilt : s.built = true) (h : (s.edit f).map (·.2) = .ok t) :
    t.built = true ∧ (((∃ e, f s.program = .error e) ∧ t.program = s.program) ∨
      ∃ changed, f s.program = .ok (changed, t.program)) := by
  obtain ⟨answer, hedit, ht⟩ := exists_of_map_eq_ok h
  unfold edit at hedit
  rw [if_pos hbuilt] at hedit
  split at hedit
  · rename_i changed p hp
    obtain ⟨u, hu, hedit⟩ := Program.exists_of_bind_eq_ok hedit
    obtain ⟨hprogram, hb⟩ := refresh_frame hu
    rw [← ht, ← Except.ok.inj hedit]
    refine ⟨hb.trans hbuilt, .inr ⟨changed, ?_⟩⟩
    rw [hp, hprogram]
  · rename_i e he
    rw [← ht, ← Except.ok.inj hedit]
    exact ⟨hbuilt, .inl ⟨⟨e, he⟩, rfl⟩⟩

/-- An edit is refused and changes nothing, or its answer is given after the diagnostics were made
anew. -/
theorem edit_cases {f : Program → Except SessionError (Bool × Program)} {answer : Except SessionError Bool}
    (hbuilt : s.built = true) (h : s.edit f = .ok (answer, t)) :
    (∃ e, f s.program = .error e ∧ answer = .error e ∧ t = s) ∨
      ∃ changed p, f s.program = .ok (changed, p) ∧ answer = .ok changed ∧
        { s with program := p }.refresh = .ok t := by
  unfold edit at h
  rw [if_pos hbuilt] at h
  cases hf : f s.program with
  | error e =>
      rw [hf] at h
      obtain ⟨rfl, rfl⟩ := Prod.mk.inj (Except.ok.inj h)
      exact .inl ⟨e, rfl, rfl, rfl⟩
  | ok edited =>
      rw [hf] at h
      obtain ⟨u, hu, h⟩ := Program.exists_of_bind_eq_ok h
      obtain ⟨rfl, rfl⟩ := Prod.mk.inj (Except.ok.inj h)
      exact .inr ⟨edited.1, edited.2, rfl, rfl, hu⟩

/-- What every call keeps of a program, it keeps of a built session. -/
theorem perform_keeps {P : Program → Prop} (hP : Program.KeptByCalls P) {c : Call} (hbuilt : s.built = true)
    (hs : P s.program) (h : s.perform c = .ok t) : t.built = true ∧ P t.program := by
  cases c with
  | solve canDump =>
      obtain ⟨hprogram, hb⟩ := program_solve hbuilt h
      rw [hprogram]
      exact ⟨hb, hP.solve _ hs⟩
  | makeNonWild key =>
      obtain ⟨hb, ⟨-, he⟩ | ⟨changed, he⟩⟩ := program_edit hbuilt h
      · exact ⟨hb, he ▸ hs⟩
      · exact ⟨hb, hP.makeNonWild _ _ _ _ hs he⟩
  | invalidate key =>
      obtain ⟨hb, ⟨-, he⟩ | ⟨changed, he⟩⟩ := program_edit hbuilt h
      · exact ⟨hb, he ▸ hs⟩
      · exact ⟨hb, hP.invalidate _ _ _ _ hs he⟩
  | restore key =>
      obtain ⟨hb, ⟨-, he⟩ | ⟨changed, he⟩⟩ := program_edit hbuilt h
      · exact ⟨hb, he ▸ hs⟩
      · exact ⟨hb, hP.restore _ _ _ _ hs he⟩

theorem performAll_keeps {P : Program → Prop} (hP : Program.KeptByCalls P) {cs : List Call}
    (hbuilt : s.built = true) (hs : P s.program) (h : s.performAll cs = .ok t) :
    t.built = true ∧ P t.program := by
  induction cs generalizing s with
  | nil =>
      rw [← Except.ok.inj h]
      exact ⟨hbuilt, hs⟩
  | cons c cs ih =>
      obtain ⟨u, hu, h⟩ := Program.exists_of_bind_eq_ok h
      obtain ⟨hb, hu'⟩ := perform_keeps hP hbuilt hs hu
      exact ih hb hu' h

theorem steady_performAll {cs : List Call} (hbuilt : s.built = true) (hs : s.program.Steady)
    (h : s.performAll cs = .ok t) : t.built = true ∧ t.program.Steady :=
  performAll_keeps Program.keptByCalls_steady hbuilt hs h

theorem built_of_build (h : (start options r).build = .ok (.ok (), s)) : s.built = true := by
  obtain ⟨-, -, -, hbuilt⟩ := exists_of_build h
  exact hbuilt

/-- Whatever was built is steady once it is solved. -/
theorem steady_of_build {canDump : Bool} (hbuild : (start options r).build = .ok (.ok (), s))
    (h : s.perform (.solve canDump) = .ok t) : t.built = true ∧ t.program.Steady := by
  obtain ⟨hprogram, hb⟩ := program_solve (built_of_build hbuild) h
  rw [hprogram]
  exact ⟨hb, Program.steady_regroup _ (recorded_build hbuild).fresh.steady_solve⟩

/-- **Through every edit, unchecked is reachable.**  After any calls on any built session,
the first of which solves it, exactly the atoms are unchecked that the constraints in
force at that moment make so. -/
theorem value_eq_wild_iff_reached {canDump : Bool} {cs : List Call}
    (hbuild : (start options r).build = .ok (.ok (), s))
    (h : s.performAll (.solve canDump :: cs) = .ok t) (key : AtomKey) :
    t.program.store.value key = .wild ↔ t.program.store.Reached key := by
  obtain ⟨u, hu, h⟩ := Program.exists_of_bind_eq_ok h
  obtain ⟨hb, hsteady⟩ := steady_of_build hbuild hu
  exact (steady_performAll hb hsteady h).2.store.value_eq_wild_iff

/-! ### A concrete session -/

/-- A session after a call, or as it was if the call faults. -/
def after (s : Session) (c : Call) : Session := (s.perform c).toOption.getD s

theorem perform_eq_after {c : Call} (h : (s.perform c).isOk = true) : s.perform c = .ok (s.after c) := by
  unfold after
  cases hp : s.perform c with
  | error e =>
      rw [hp] at h
      exact nomatch h
  | ok t => rfl

/-- An edit that answers leads to a session. -/
theorem exists_of_answer {edited : Except Fault (Except SessionError Bool × Session)} {changed : Bool}
    (h : edited.toOption.map (·.1.toOption) = some (some changed)) : ∃ t, edited = .ok (.ok changed, t) := by
  rcases edited with fault | ⟨err | answer, t⟩
  · exact nomatch h
  · exact nomatch h
  · obtain rfl : answer = changed := Option.some.inj (Option.some.inj h)
    exact ⟨t, rfl⟩

theorem makeNonWild_eq_after {key : AtomKey} {changed : Bool}
    (h : (s.makeNonWild key).toOption.map (·.1.toOption) = some (some changed)) :
    s.makeNonWild key = .ok (.ok changed, s.after (.makeNonWild key)) := by
  obtain ⟨t, ht⟩ := exists_of_answer h
  simp only [after, perform, ht]
  rfl

theorem invalidate_eq_after {key : AtomKey} {changed : Bool}
    (h : (s.invalidate key).toOption.map (·.1.toOption) = some (some changed)) :
    s.invalidate key = .ok (.ok changed, s.after (.invalidate key)) := by
  obtain ⟨t, ht⟩ := exists_of_answer h
  simp only [after, perform, ht]
  rfl

/-- A session that was just built, or is about to be if that faults. -/
def ofRecording (r : Recording) : Session :=
  ((start {} r).build.toOption.map (·.2)).getD (start {} r)

/-- The declaration of a local pointer, alone on a line. -/
def localPointer (name : String) (line : Nat) : Decl where
  name := name
  location := ⟨"a.c", line, 1, none⟩
  type := .pointer (.scalar "int" .integer) none
  kind := .local

/-- One unchecked pointer is assigned to another, and a third is unchecked by itself. -/
def threePointers : Recording where
  units := [{
    file := "a.c"
    events := [
      .declare 0 (localPointer "p" 1), .declare 1 (localPointer "q" 2), .declare 2 (localPointer "r" 3),
      .assign 1 0 none, .wild 0 ⟨"first", none⟩, .wild 2 ⟨"second", none⟩] }]

def threeBuilt : Session :=
  ((start {} threePointers).build.toOption.map (·.2)).getD (start {} threePointers)

/-- The first group is released, the second stays. -/
def threeEdited : Session :=
  (threeBuilt.performAll [.solve false, .makeNonWild 0]).toOption.getD threeBuilt

theorem threeEdited_reached :
    ((start {} threePointers).build = .ok (.ok (), threeBuilt) ∧
      threeBuilt.performAll [.solve false, .makeNonWild 0] = .ok threeEdited) ∧
    ∀ key, threeEdited.program.store.value key = .wild ↔ threeEdited.program.store.Reached key := by
  have hbuild : (start {} threePointers).build = .ok (.ok (), threeBuilt) := rfl
  have hedit : threeBuilt.performAll [.solve false, .makeNonWild 0] = .ok threeEdited := rfl
  exact ⟨⟨hbuild, hedit⟩, value_eq_wild_iff_reached hbuild hedit⟩

end Session

end PointerKinds
