/-
A session that leaves nothing unsatisfied honours every event it was recorded from.

Each event was replayed into some program, which gave its nodes a meaning.  What replaying
it imposed is still in force when the program is solved, whatever was declared, merged or
linked after it; so the kinds that satisfy the program satisfy the event, and can be read
off the relation that the event was replayed as.
-/
import PointerKinds.Proofs.Session.Numbering
import PointerKinds.Proofs.Session.Reachability
import PointerKinds.Proofs.Session.Relations

namespace PointerKinds

namespace Program

variable {m m' : Program} {E : AtomKey → Kind} {e : Event}

/-- What kinds owe to an event that is replayed into a program.  A value assigned to an
object of the same shape flows; other assignments and unsafe casts give both objects up;
a safe cast makes them agree; and what is used in a way that cannot be checked is unchecked
throughout. -/
def Honours (m : Program) (E : AtomKey → Kind) : Event → Prop
  | .assign target source _ => ∃ v w, m.resolve target = .ok v ∧ m.resolve source = .ok w ∧
      ∀ a b, v.object? = some a → w.object? = some b →
        if v.sameShape false w then b.FlowsInto E a else a.IsUnchecked E ∧ b.IsUnchecked E
  | .cast target targetType source sourceType _ =>
      ∃ v w, m.resolve target = .ok v ∧ m.resolve source = .ok w ∧
        ∀ a b, v.object? = some a → w.object? = some b →
          if targetType.castSafe sourceType then a.AgreesWith E b
          else a.IsUnchecked E ∧ b.IsUnchecked E
  | .wild node _ => ∃ v, m.resolve node = .ok v ∧ ∀ x ∈ v.atoms, E x = .wild
  | .declare .. | .call .. | .bounds .. => True

/-- What satisfies a program that an event was just replayed into honours the event. -/
theorem Step.honours (hstep : m.Step e m') (hs : m.store.Fresh) (hm : m.Coherent)
    (hE : m'.store.Satisfied E) : m.Honours E e := by
  cases hstep with
  | assign hv hw =>
      rename_i v w
      refine ⟨v, w, hv, hw, fun a b ha hb => ?_⟩
      have hid : v.id = w.id → v = w := hm.resolve_eq hv hw
      rw [store_assign] at hE
      have hmet := hE.allMet hs
      unfold Demand.assign at hmet
      cases hshape : v.sameShape false w with
      | true =>
          rw [hshape, if_pos rfl] at hmet
          rw [if_pos rfl]
          rw [Variable.sameShape_comm] at hshape
          exact hmet.of_along hshape (fun he => (hid he.symm).symm) hb ha
      | false =>
          rw [hshape, if_neg Bool.false_ne_true,
            Demand.agree_eq_outerAll _ hshape hid (.inl (Variable.isFunction_of_object? ha))] at hmet
          rw [if_neg Bool.false_ne_true]
          exact hmet.unchecked_pair ha hb
  | cast hv hw =>
      rw [store_cast] at hE
      exact ⟨_, _, hv, hw, fun a b ha hb => (hE.allMet hs).of_cast ha hb⟩
  | wild hv =>
      rw [store_makeWild] at hE
      exact ⟨_, hv, fun x hx => le_antisymm (Kind.le_wild _) ((hE.allMet hs).of_throughout x hx)⟩
  | declare | call | bounds => trivial

end Program

namespace Session

variable {s t : Session} {options : Options} {r : Recording} {outcome : Outcome} {canDump : Bool}
  {i j : Nat} {e : Event}

/-- What a session answers when it is solved is what its program answers. -/
theorem program_of_solve (h : s.solve canDump = .ok (.ok outcome, t)) :
    outcome = s.program.solve.1 ∧ t.program = s.program.solve.2 := by
  unfold solve at h
  split at h
  · simp only at h
    split at h
    · exact nomatch (Prod.mk.inj (Except.ok.inj h)).1
    · obtain ⟨u, hu, h⟩ := Program.exists_of_bind_eq_ok h
      obtain ⟨houtcome, rfl⟩ := Prod.mk.inj (Except.ok.inj h)
      exact ⟨(Except.ok.inj houtcome).symm, (refresh_frame hu).1⟩
  · exact nomatch (Prod.mk.inj (Except.ok.inj h)).1

/-- Kinds that leave nothing unsatisfied satisfy what the session has asked for. -/
theorem satisfied_of_solve (hsolve : s.solve canDump = .ok (.ok outcome, t)) (hsolved : outcome.isSolved = true) :
    s.program.store.Satisfied t.program.store.value := by
  obtain ⟨houtcome, hprogram⟩ := program_of_solve hsolve
  rw [hprogram]
  exact Store.satisfied_solve (houtcome ▸ hsolved)

/-- **A solution that leaves nothing unsatisfied honours every event.**  Every event of every
file that was visited was replayed into some program, and the solved kinds honour the event
as that program understood it. -/
theorem events_honoured (hbuild : (start options r).build = .ok (.ok (), s))
    (hsolve : s.solve canDump = .ok (.ok outcome, t)) (hsolved : outcome.isSolved = true)
    (he : r.event? j i = some e) :
    (∃ m, Before options r j i m) ∧
      ∀ m, Before options r j i m → m.Honours t.program.store.value e := by
  obtain ⟨m, m', p, hbefore, hstep, hwalks, hlink⟩ := exists_before hbuild he
  obtain ⟨houtcome, hprogram⟩ := program_of_solve hsolve
  have hfresh : m.store.Fresh := Store.Recorded.fresh hbefore.walks.grows
  have hcoherent : m.Coherent := hbefore.walks.coherent (Program.coherent_start options)
  have hgrows : m'.store.Grows s.program.store := by
    rw [hlink]
    exact hwalks.grows.trans p.grows_link
  have hE : s.program.store.Satisfied t.program.store.value := by
    rw [hprogram]
    exact Store.satisfied_solve (houtcome ▸ hsolved)
  have hevent := hE.of_grows (hstep.grows.fresh hfresh) hgrows
  refine ⟨⟨m, hbefore⟩, fun n hn => ?_⟩
  rw [hn.eq hbefore]
  exact hstep.honours hfresh hcoherent hevent

/-! ### A concrete session -/

theorem solve_eq_after
    (h : (s.solve canDump).toOption.any (fun answer => answer.1.toOption.isSome) = true) :
    s.solve canDump = .ok (.ok s.program.solve.1, s.after (.solve canDump)) := by
  rcases hsolve : s.solve canDump with fault | ⟨err | outcome, t⟩
  · rw [hsolve] at h
    exact nomatch h
  · rw [hsolve] at h
    exact nomatch h
  · simp only [after, perform, hsolve, (program_of_solve hsolve).1]
    rfl

/-- The type of a pointer to a type. -/
def pointerTo (ty : CType) : CType := .pointer ty none

/-- The type of whole numbers. -/
def intType : CType := .scalar "int" .integer

/-- Two pointers to pointers are assigned and cast to each other, a pointer to characters is
assigned to one of them, and a pointer to a function is used in a way that cannot be checked.
In another file a pointer is cast to one of another type. -/
def mixedPointers : Recording where
  units := [
    { file := "a.c"
      events := [
        .declare 0 { localPointer "p" 1 with type := pointerTo (pointerTo intType) },
        .declare 1 { localPointer "q" 2 with type := pointerTo (pointerTo intType) },
        .declare 2 { localPointer "c" 3 with type := pointerTo (.scalar "char" .char) },
        .declare 3 { localPointer "f" 4 with
          type := pointerTo (.function intType [pointerTo intType] false) },
        .assign 1 0 none, .cast 0 (pointerTo (pointerTo intType)) 1 (pointerTo (pointerTo intType)) none,
        .assign 0 2 none, .wild 3 ⟨"assembly", none⟩] },
    { file := "b.c"
      events := [
        .declare 0 { localPointer "r" 5 with kind := .global },
        .declare 1 { localPointer "s" 6 with type := pointerTo (.record "s") },
        .cast 0 (pointerTo intType) 1 (pointerTo (.record "s")) none] }]

/-- Nothing is left unsatisfied, and the pointers that were assigned in spite of their types
are both given up. -/
theorem mixedPointers_honoured :
    ((start {} mixedPointers).build = .ok (.ok (), ofRecording mixedPointers) ∧
      (ofRecording mixedPointers).solve false =
        .ok (.ok (ofRecording mixedPointers).program.solve.1, (ofRecording mixedPointers).after (.solve false)) ∧
      (ofRecording mixedPointers).program.solve.1.isSolved = true ∧
      mixedPointers.event? 0 6 = some (.assign 0 2 none)) ∧
    (∃ m, Before {} mixedPointers 0 6 m) ∧
      ∀ m, Before {} mixedPointers 0 6 m →
        m.Honours ((ofRecording mixedPointers).after (.solve false)).program.store.value (.assign 0 2 none) := by
  have hbuild : (start {} mixedPointers).build = .ok (.ok (), ofRecording mixedPointers) := rfl
  have hsolve : (ofRecording mixedPointers).solve false =
      .ok (.ok (ofRecording mixedPointers).program.solve.1,
        (ofRecording mixedPointers).after (.solve false)) := solve_eq_after (by decide +kernel)
  have hsolved : (ofRecording mixedPointers).program.solve.1.isSolved = true := by decide +kernel
  exact ⟨⟨hbuild, hsolve, hsolved, rfl⟩, events_honoured hbuild hsolve hsolved rfl⟩

end Session

end PointerKinds
