/-
Restoring an atom undoes releasing it.

Releasing an unchecked atom erases constraints that may be on record with several atoms, and
solves its group again.  Restoring is told the atom alone.  It finds exactly what was erased,
because everything that holds an atom unchecked mentions it; and there is always something to
find, because the constraint remembered for the atom is among it.  Putting it back leaves the
store with the constraints, filters and preferences it had before anything was solved.  By the
agreement of its records a store is nothing but those, as long as nothing was found out about
its atoms; so solving from scratch is solving the same store as the first time.
-/
import PointerKinds.Proofs.Session.Events
import PointerKinds.Proofs.Session.Origins
import PointerKinds.Proofs.Session.Registry
import PointerKinds.Proofs.Solver.Frame

namespace PointerKinds

namespace Store

variable {s t u : Store} {key x : AtomKey} {id : ConstraintId} {region : List AtomKey}

/-! ### A store is its constraints, filters and preferences -/

theorem Indexed.atoms_eq (hs : s.Indexed) (ht : t.Indexed) (h : s.Akin t) (herased : t.erased = s.erased) :
    t.atoms = s.atoms := by
  have hmentions : ∀ id key, t.Mentions id key ↔ s.Mentions id key := fun id key => by
    simp only [Mentions, formula?, constraint?, h.arena]
  refine SortedMap.ext_get? fun key => ?_
  have hactive : ∀ id, t.ActiveAt key id ↔ s.ActiveAt key id := fun id => by
    rw [ht.active, hs.active, hmentions, isActive_iff, isActive_iff, h.topLevel, herased]
  have herasedAt : ∀ id, t.ErasedAt key id ↔ s.ErasedAt key id := fun id => by
    rw [ht.erased, hs.erased, hmentions, herased]
  have hbare := h.bare key
  unfold Store.bare at hbare
  unfold ActiveAt at hactive
  unfold ErasedAt at herasedAt
  cases ha : s.atoms.get? key with
  | none =>
      rw [ha] at hbare
      exact Option.map_eq_none_iff.1 hbare
  | some a =>
      rw [ha, Option.map_some] at hbare
      obtain ⟨b, hb, hab⟩ := Option.map_eq_some_iff.1 hbare
      obtain ⟨hforbidden, hsoft⟩ := Prod.mk.inj hab
      simp only [ha, hb, Option.some.injEq, exists_eq_left'] at hactive herasedAt
      rw [hb]
      congr 1
      cases a; cases b
      simp only [Atom.mk.injEq]
      exact ⟨hforbidden, hsoft, SortedSet.ext_mem hactive, SortedSet.ext_mem herasedAt⟩

theorem Tallied.env_reset_eq (hs : s.Tallied) (ht : t.Tallied) (hatoms : t.atoms = s.atoms) :
    t.reset.env = s.reset.env := by
  refine SortedMap.ext_get? fun key => ?_
  have hlisted : (t.env.get? key).isSome = true ↔ (s.env.get? key).isSome = true :=
    (ht.listed key).trans (hatoms ▸ (hs.listed key).symm)
  have hreset : ∀ u : Store, u.reset.env.get? key = (u.env.get? key).map fun _ => Kind.ptr :=
    fun u => SortedMap.get?_mapValues (fun _ _ => Kind.ptr) u.env key
  rw [hreset, hreset]
  cases hs' : s.env.get? key <;> cases ht' : t.env.get? key <;> simp_all

/-- Once every atom is put back to a checked pointer, akin stores with the same constraints
suspended are the same. -/
theorem Built.reset_eq (hs : s.Built) (ht : t.Built) (h : s.Akin t) (htrace : s.trace = none)
    (herased : t.erased = s.erased) : t.reset = s.reset := by
  have hatoms := hs.indexed.atoms_eq ht.indexed h herased
  have henv := hs.tallied.env_reset_eq ht.tallied hatoms
  have htrace' := (h.untraced htrace).trans htrace.symm
  have harena := h.arena
  have htop := h.topLevel
  have hnext := h.nextKey
  cases s; cases t
  simp only [Store.reset, Store.mk.injEq] at *
  exact ⟨hatoms, henv, harena, htop, herased, trivial, hnext, htrace'⟩

theorem Blank.reset_eq (h : s.Blank) : s.reset = s := by
  have henv : s.reset.env = s.env := by
    refine SortedMap.ext_get? fun key => ?_
    have hkey := h.checked key
    unfold value SortedMap.getD at hkey
    unfold reset
    simp only [SortedMap.get?_mapValues]
    cases hget : s.env.get? key with
    | none => rfl
    | some k =>
        rw [hget, Option.getD_some] at hkey
        rw [hkey]
        rfl
  have hforced : (∅ : SortedMap AtomKey ConstraintId) = s.forcedBy :=
    SortedMap.ext_get? fun key => (h.uncaused key).symm
  unfold reset at henv ⊢
  cases s
  simp only [Store.mk.injEq] at *
  exact ⟨trivial, henv, trivial, trivial, trivial, hforced, trivial, trivial⟩

/-! ### Releasing and restoring -/

theorem trace_intern (s : Store) (c : Constraint) : (s.intern c).2.trace = s.trace := by
  unfold intern
  split <;> rfl

theorem trace_imposeFilter (s : Store) (f : Formula) : (s.imposeFilter f).trace = s.trace := by
  unfold imposeFilter
  split
  · split <;> rfl
  · rfl

theorem trace_attachAll (s : Store) (id : ConstraintId) (keys : List AtomKey) :
    (keys.foldl (attach id) s).trace = s.trace := by
  induction keys generalizing s with
  | nil => rfl
  | cons key rest ih => exact ih (s.attach id key)

theorem trace_add (s : Store) (id : ConstraintId) : (s.add id).trace = s.trace := by
  unfold add
  split
  · split
    · exact (trace_attachAll _ id _).trans (trace_imposeFilter s _)
    · rfl
  · rfl

theorem trace_post (s : Store) (c : Constraint) : (s.post c).2.trace = s.trace :=
  (trace_add _ _).trans (trace_intern s c)

theorem trace_addFlow (s : Store) (a b : AtomKey) (k : Kind) : (s.addFlow a b k).trace = s.trace :=
  (trace_post _ _).trans ((trace_intern _ _).trans (trace_intern s _))

/-- Recording starts no record of moves. -/
theorem Grows.untraced (h : t.Grows s) (ht : t.trace = none) : s.trace = none := by
  induction h with
  | refl => exact ht
  | newAtom _ ih => exact ih
  | bar _ _ ih => exact ih
  | prefer _ _ _ ih => exact ih
  | pin _ _ _ _ ih => exact (trace_post _ _).trans ih
  | join _ _ _ _ ih => exact (trace_post _ _).trans ih
  | flow _ a b ih =>
      rw [foldl_addFlow, trace_addFlow, trace_addFlow, trace_addFlow]
      exact ih

/-- What is left when an atom was released and restored, and every atom is put back to a checked
pointer, is the store that was solved. -/
theorem Recorded.reset_restore_makeNonWild (h : s.Recorded) (hkey : s.solve.2.value key = .wild)
    (region : List AtomKey) : ((s.solve.2.makeNonWild key region).2.restore key).reset = s := by
  have hs := h.fresh
  have hbuilt := h.built
  have hreleased : (s.solve.2.makeNonWild key region).2.Built := hbuilt.solve.makeNonWild key region
  have hakin : s.Akin ((s.solve.2.makeNonWild key region).2.restore key) :=
    ((akin_commit s _).trans (akin_makeNonWild s.solve.2 key region)).trans (akin_restore _ key)
  refine (hbuilt.reset_eq (hreleased.restore key) hakin (h.untraced rfl) ?_).trans hs.reset_eq
  -- Nothing was erased before, and whatever was erased since mentions the atom: all of it is restored.
  refine SortedSet.ext_mem fun id => ?_
  obtain ⟨-, -, herased, -⟩ := restore_frame (s.solve.2.makeNonWild key region).2 key
  rw [herased, hreleased.indexed.mem_restorable_iff, mentions_makeNonWild]
  refine iff_of_false ?_ (hs.unerased id)
  rintro ⟨hid, hnot⟩
  rcases (erased_makeNonWild hkey).1 hid with hid | ⟨hforcing, -⟩
  · exact hs.unerased id hid
  · exact hnot ⟨hid, (hs.steady_solve.indexed.of_mem_wildForcing hforcing).2⟩

/-- Nothing can be restored where nothing was erased. -/
theorem Indexed.restorable_eq_nil (h : s.Indexed) (hunerased : ∀ id, id ∉ s.erased) (key : AtomKey) :
    s.restorable key = [] :=
  List.eq_nil_iff_forall_not_mem.2 fun id hid => hunerased id (h.mem_restorable_iff.1 hid).1

/-- After an unchecked atom was released there is something to restore. -/
theorem Recorded.restorable_makeNonWild (h : s.Recorded) (hkey : s.solve.2.value key = .wild)
    (region : List AtomKey) : ((s.solve.2.makeNonWild key region).2.restorable key).isEmpty = false := by
  have hreleased : (s.solve.2.makeNonWild key region).2.Built := h.built.solve.makeNonWild key region
  have hsteady := h.fresh.steady_solve
  obtain ⟨id, -, hid⟩ := hsteady.exists_mem_wildForcing hkey
  obtain ⟨hactive, hmentions⟩ := hsteady.indexed.of_mem_wildForcing hid
  have hmem : id ∈ (s.solve.2.makeNonWild key region).2.restorable key :=
    hreleased.indexed.mem_restorable_iff.2
      ⟨(erased_makeNonWild hkey).2 (.inr ⟨hid, hactive⟩), mentions_makeNonWild.2 hmentions⟩
  rw [List.isEmpty_eq_false_iff]
  exact List.ne_nil_of_mem hmem

end Store

namespace Program

variable {p q : Program} {s : Store} {key : AtomKey} {changed : Bool}

/-- A program with a given store that nothing was solved in. -/
structure Unsolved (s : Store) (p : Program) : Prop where
  store : p.store = s
  ungrouped : ∀ key, p.rootCauses.find key = none

theorem find_ofStore_of_checked (h : ∀ key, s.value key = .ptr) (key : AtomKey) :
    (RootCauses.ofStore s).find key = none := by
  have hnone : (RootCauses.ofStore s).label.get? key = none := by
    by_contra hne
    have hcontains : (RootCauses.ofStore s).contains key = true := Option.isSome_iff_ne_none.2 hne
    have hwild := Store.mem_wildAtoms.1 ((RootCauses.contains_ofStore s key).1 hcontains)
    rw [h key] at hwild
    exact nomatch hwild
  unfold RootCauses.find
  rw [hnone]
  rfl

/-- Releasing an atom that is checked does nothing. -/
theorem Unsolved.makeNonWild (h : Unsolved s p) (hs : s.Fresh) (hq : p.makeNonWild key = .ok (changed, q)) :
    Unsolved s q := by
  have he : _ = q := congrArg Prod.snd (ifKnown_eq_ok hq)
  have hne : p.store.value key ≠ .wild := by
    rw [h.store, hs.checked]
    decide
  have hstore : (p.store.makeNonWild key (p.regionOf key)).2 = s := by
    rw [Store.makeNonWild_of_ne hne, h.store]
  rw [← he]
  refine ⟨hstore, fun key => ?_⟩
  show (RootCauses.ofStore (p.store.makeNonWild _ _).2).find key = none
  rw [hstore]
  exact find_ofStore_of_checked hs.checked key

theorem Unsolved.invalidate (h : Unsolved s p) (hq : p.invalidate key = .ok (changed, q)) : Unsolved s q := by
  have he : _ = q := congrArg Prod.snd (ifKnown_eq_ok hq)
  rw [h.ungrouped key] at he
  exact he ▸ h

theorem Unsolved.restore (h : Unsolved s p) (hs : s.Fresh) (hq : p.restore key = .ok (changed, q)) :
    Unsolved s q := by
  have he : _ = q := congrArg Prod.snd (ifKnown_eq_ok hq)
  rw [h.store, hs.indexed.restorable_eq_nil hs.unerased] at he
  exact he ▸ h

theorem regroup_withStore_self (h : p.rootCauses = .ofStore p.store) : (p.withStore p.store).regroup = p := by
  unfold regroup withStore
  show { p with rootCauses := RootCauses.ofStore p.store } = p
  rw [← h]

/-- Restoring an atom undoes releasing it, in a program right after it was first solved. -/
theorem restore_makeNonWild (hs : s.Recorded) (hstore : p.store = s.solve.2)
    (hgrouped : p.rootCauses = .ofStore p.store) (hq : p.makeNonWild key = .ok (changed, q)) :
    ∃ restored, q.restore key = .ok (restored, p) := by
  have hreg : p.store.atoms.contains key = true := by
    by_contra hne
    unfold Program.makeNonWild ifKnown at hq
    rw [if_neg hne] at hq
    exact nomatch hq
  obtain rfl : (p.withStore (p.store.makeNonWild key (p.regionOf key)).2).regroup = q :=
    congrArg Prod.snd (ifKnown_eq_ok hq)
  generalize p.regionOf key = region
  have hreg' : (p.store.makeNonWild key region).2.atoms.contains key = true :=
    ((Store.akin_makeNonWild _ _ _).contains key).trans hreg
  unfold Program.restore ifKnown
  show ∃ restored, (if (p.store.makeNonWild key region).2.atoms.contains key then _ else _) = _
  rw [if_pos hreg']
  show ∃ restored, Except.ok (if ((p.store.makeNonWild key region).2.restorable key).isEmpty then _ else _) = _
  by_cases hkey : p.store.value key = .wild
  · rw [hstore] at hkey ⊢
    rw [hs.restorable_makeNonWild hkey]
    refine ⟨true, congrArg Except.ok (Prod.ext rfl ?_)⟩
    show (p.withStore (((s.solve.2.makeNonWild key region).2.restore key).reset.solve).2).regroup = p
    rw [hs.reset_restore_makeNonWild hkey, ← hstore]
    exact regroup_withStore_self hgrouped
  · have hempty : p.store.restorable key = [] := by
      rw [hstore]
      exact hs.fresh.steady_solve.indexed.restorable_eq_nil hs.fresh.unerased key
    rw [Store.makeNonWild_of_ne hkey, hempty]
    exact ⟨false, congrArg Except.ok (Prod.ext rfl (regroup_withStore_self hgrouped))⟩

end Program

namespace Session

variable {s t u : Session} {options : Options} {r : Recording} {key : AtomKey}

/-- Before a session was built, nothing was grouped, and building groups nothing. -/
theorem rootCauses_build (h : (start options r).build = .ok (.ok (), s)) : s.program.rootCauses = {} := by
  obtain ⟨p, hvisit, hlink, -⟩ := exists_of_build h
  rw [hlink, p.relinks_link.rootCauses, (walks_visitAll hvisit).extends.rootCauses]

/-- An edit before the first solution leaves the store alone. -/
theorem unsolved_perform {store : Store} {c : Call} (hfresh : store.Fresh) (hbuilt : s.built = true)
    (hs : s.program.Unsolved store) (hc : ∀ canDump, c ≠ .solve canDump) (h : s.perform c = .ok t) :
    t.built = true ∧ t.program.Unsolved store := by
  cases c with
  | solve canDump => exact absurd rfl (hc canDump)
  | makeNonWild key =>
      obtain ⟨hb, ⟨-, he⟩ | ⟨changed, he⟩⟩ := program_edit hbuilt h
      · exact ⟨hb, he ▸ hs⟩
      · exact ⟨hb, hs.makeNonWild hfresh he⟩
  | invalidate key =>
      obtain ⟨hb, ⟨-, he⟩ | ⟨changed, he⟩⟩ := program_edit hbuilt h
      · exact ⟨hb, he ▸ hs⟩
      · exact ⟨hb, hs.invalidate he⟩
  | restore key =>
      obtain ⟨hb, ⟨-, he⟩ | ⟨changed, he⟩⟩ := program_edit hbuilt h
      · exact ⟨hb, he ▸ hs⟩
      · exact ⟨hb, hs.restore hfresh he⟩

theorem unsolved_performAll {store : Store} {cs : List Call} (hfresh : store.Fresh) (hbuilt : s.built = true)
    (hs : s.program.Unsolved store) (hcs : ∀ c ∈ cs, ∀ canDump, c ≠ .solve canDump)
    (h : s.performAll cs = .ok t) : t.built = true ∧ t.program.Unsolved store := by
  induction cs generalizing s with
  | nil =>
      rw [← Except.ok.inj h]
      exact ⟨hbuilt, hs⟩
  | cons c cs ih =>
      obtain ⟨hc, hrest⟩ := List.forall_mem_cons.1 hcs
      obtain ⟨u, hu, h⟩ := Program.exists_of_bind_eq_ok h
      obtain ⟨hb, hu'⟩ := unsolved_perform hfresh hbuilt hs hc hu
      exact ih hb hu' hrest h

/-! ### Diagnostics -/

/-- The diagnostics are made of the program alone. -/
theorem refresh_congr (hrecording : s.recording = t.recording) (hprogram : s.program = t.program)
    (hbuilt : s.built = t.built) : s.refresh = t.refresh := by
  unfold refresh
  rw [hprogram]
  cases s; cases t
  obtain rfl : _ = _ := hrecording
  obtain rfl : _ = _ := hprogram
  obtain rfl : _ = _ := hbuilt
  rfl

theorem recording_refresh (h : s.refresh = .ok t) : t.recording = s.recording := by
  unfold refresh at h
  obtain ⟨ds, -, h⟩ := Program.exists_of_bind_eq_ok h
  rw [← Except.ok.inj h]

/-- Making the diagnostics anew once more changes nothing. -/
theorem refresh_refresh (h : s.refresh = .ok t) : t.refresh = .ok t := by
  obtain ⟨hprogram, hbuilt⟩ := refresh_frame h
  rw [refresh_congr (recording_refresh h) hprogram hbuilt]
  exact h

theorem edit_of_ok {f : Program → Except SessionError (Bool × Program)} {changed : Bool} {p : Program}
    (hbuilt : s.built = true) (hf : f s.program = .ok (changed, p))
    (h : { s with program := p }.refresh = .ok t) : s.edit f = .ok (.ok changed, t) := by
  unfold edit
  rw [if_pos hbuilt, hf]
  show ({ s with program := p }.refresh >>= _) = _
  rw [h]
  rfl

/-- A solution that is answered was followed by new diagnostics. -/
theorem refresh_of_solve {canDump : Bool} {outcome : Outcome} (hbuilt : s.built = true)
    (h : s.solve canDump = .ok (.ok outcome, t)) : { s with program := s.program.solve.2 }.refresh = .ok t := by
  unfold solve at h
  rw [if_pos hbuilt] at h
  simp only at h
  split at h
  · exact nomatch (Prod.mk.inj (Except.ok.inj h)).1
  · obtain ⟨u, hu, h⟩ := Program.exists_of_bind_eq_ok h
    exact (Prod.mk.inj (Except.ok.inj h)).2 ▸ hu

/-! ### Undoing -/

/-- **Restoring undoes releasing.**  In a session right after its first solution, an atom is
released, whether or not it is unchecked, and then restored.  Whatever the two calls answer,
the session is exactly what it was: its kinds, the constraints remembered, the constraints in
force and the erased ones, the groups of unchecked atoms, and the diagnostics. -/
theorem restore_undoes_makeNonWild {s' : Session} {cs : List Call} {canDump : Bool} {outcome : Outcome}
    {released : Except SessionError Bool} (hbuild : (start options r).build = .ok (.ok (), s))
    (hbefore : s.performAll cs = .ok s') (hcs : ∀ c ∈ cs, ∀ canDump, c ≠ .solve canDump)
    (hsolve : s'.solve canDump = .ok (.ok outcome, t)) (hrelease : t.makeNonWild key = .ok (released, u)) :
    ∃ restored, u.restore key = .ok (restored, t) := by
  have hrecorded := recorded_build hbuild
  have hstart : s.program.Unsolved s.program.store := ⟨rfl, fun key => by rw [rootCauses_build hbuild]; rfl⟩
  obtain ⟨hbuilt', hunsolved⟩ :=
    unsolved_performAll hrecorded.fresh (built_of_build hbuild) hstart hcs hbefore
  have hrefresh := refresh_of_solve hbuilt' hsolve
  obtain ⟨hprogram, hbuilt⟩ := refresh_frame hrefresh
  have hbuilt : t.built = true := hbuilt.trans hbuilt'
  have hstore : t.program.store = s.program.store.solve.2 := by
    rw [hprogram, ← hunsolved.store]
    rfl
  have hgrouped : t.program.rootCauses = .ofStore t.program.store := by
    rw [hprogram]
    rfl
  rcases edit_cases hbuilt hrelease with ⟨e, he, -, rfl⟩ | ⟨changed, q, hq, -, hu⟩
  · -- The atom is not known, so neither call gets as far as an edit.
    have hunknown : ¬ u.program.store.atoms.contains key = true := by
      intro hreg
      unfold Program.makeNonWild Program.ifKnown at he
      rw [if_pos hreg] at he
      exact nomatch he
    refine ⟨.error (.unknownAtom key), ?_⟩
    unfold restore edit Program.restore Program.ifKnown
    simp only [if_pos hbuilt, if_neg hunknown]
  · obtain ⟨restored, hrestored⟩ := Program.restore_makeNonWild hrecorded hstore hgrouped hq
    obtain ⟨huprogram, hubuilt⟩ := refresh_frame hu
    have hubuilt : u.built = true := hubuilt.trans hbuilt
    have hrestored : u.program.restore key = .ok (restored, t.program) := by
      rw [huprogram]
      exact hrestored
    have hrecording := recording_refresh hu
    have hsame : { u with program := t.program }.refresh = t.refresh :=
      refresh_congr hrecording rfl (hubuilt.trans hbuilt.symm)
    exact ⟨.ok restored, edit_of_ok hubuilt hrestored (hsame.trans (refresh_refresh hrefresh))⟩

/-- Three pointers after an edit that came too early, and after they were solved then. -/
def threeEager : Session := threeBuilt.after (.makeNonWild 1)

def threeEagerSolved : Session := threeEager.after (.solve false)

/-- The pointer that is only assigned to is released, and restored. -/
theorem threeEagerSolved_undone :
    ((start {} threePointers).build = .ok (.ok (), threeBuilt) ∧
      threeBuilt.performAll [.makeNonWild 1] = .ok threeEager ∧
      threeEager.solve false = .ok (.ok threeEager.program.solve.1, threeEagerSolved) ∧
      threeEagerSolved.program.store.value 1 = .wild ∧
      threeEagerSolved.makeNonWild 1 = .ok (.ok true, threeEagerSolved.after (.makeNonWild 1))) ∧
    ∃ restored, (threeEagerSolved.after (.makeNonWild 1)).restore 1 = .ok (restored, threeEagerSolved) := by
  have hbuild : (start {} threePointers).build = .ok (.ok (), threeBuilt) := rfl
  have hbefore : threeBuilt.performAll [.makeNonWild 1] = .ok threeEager := by
    unfold performAll
    rw [perform_eq_after (by decide +kernel)]
    rfl
  have hsolve : threeEager.solve false = .ok (.ok threeEager.program.solve.1, threeEagerSolved) :=
    solve_eq_after (by decide +kernel)
  have hrelease : threeEagerSolved.makeNonWild 1 = .ok (.ok true, threeEagerSolved.after (.makeNonWild 1)) :=
    makeNonWild_eq_after (by decide +kernel)
  exact ⟨⟨hbuild, hbefore, hsolve, by decide +kernel, hrelease⟩,
    restore_undoes_makeNonWild hbuild hbefore (by simp) hsolve hrelease⟩

end Session

end PointerKinds
