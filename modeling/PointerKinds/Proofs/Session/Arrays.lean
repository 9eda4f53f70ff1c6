/-
Arrays of constant size are never unchecked.

Their declaration bars them from being unchecked and demands that they are at least plain
arrays.  Neither is ever taken back.  A filter is not touched by solving or editing at all.  An
edit erases two kinds of constraints: what holds an atom unchecked at the moment, and what made
one unchecked for a reason; and a pin to any other kind is neither, whatever atom is released
and whatever reason is invalidated.  So the demand is in force in every state, and once the
program was solved, it is met.

What resets a region and solves it again need not be looked at: after the first solution the
store is steady, and in a steady store whatever is in force is met and nothing is unchecked that
the filters do not permit.
-/
import PointerKinds.Proofs.Session.Origins
import PointerKinds.Proofs.Session.Placement
import PointerKinds.Proofs.Session.Release
import PointerKinds.Proofs.Session.Requests
import PointerKinds.Proofs.Solver.Assertions

namespace PointerKinds

namespace Store

variable {s t : Store} {x key : AtomKey} {k : Kind} {id : ConstraintId} {f : Formula} {reason : String}
  {region : List AtomKey}

/-! ### What no edit erases -/

/-- A pin to a checked kind holds no atom unchecked. -/
theorem forcesWild_pin_of_ne {top : ConstraintId} (hk : k ≠ .wild) : s.forcesWild top key (.pin x k) = false := by
  unfold forcesWild handsOnWild
  simp [hk]

theorem not_mem_wildForcing (hf : s.formula? id = some (.pin x k)) (hk : k ≠ .wild) : id ∉ s.wildForcing key := by
  unfold wildForcing formulasAt
  intro hmem
  obtain ⟨⟨id', f⟩, hc, rfl⟩ := List.mem_map.1 hmem
  obtain ⟨hat, hforces⟩ := List.mem_filter.1 hc
  split at hat
  · obtain ⟨i, -, hi⟩ := List.mem_filterMap.1 hat
    obtain ⟨g, hg, he⟩ := Option.map_eq_some_iff.1 hi
    obtain ⟨rfl, rfl⟩ := Prod.mk.inj he
    obtain rfl := Option.some.inj (hg.symm.trans hf)
    rw [forcesWild_pin_of_ne hk] at hforces
    exact absurd hforces Bool.false_ne_true
  · exact absurd hat List.not_mem_nil

theorem not_mem_wildWithReason (hf : s.formula? id = some (.pin x k)) (hk : k ≠ .wild) :
    id ∉ s.wildWithReason reason := by
  intro hmem
  obtain ⟨-, hsame⟩ := List.mem_filter.1 hmem
  obtain ⟨c, hc, hformula⟩ := Option.map_eq_some_iff.1 hf
  rw [hc] at hsame
  simp only [hformula, Formula.atomKind?, Bool.and_eq_true, beq_iff_eq] at hsame
  exact hk (Option.some.inj hsame.2)

/-- Erasing constraints leaves a formula in force that none of them states. -/
theorem InForce.eraseAll (hf : s.InForce f) {ids : List ConstraintId}
    (hids : ∀ id, s.formula? id = some f → id ∉ ids) : (ids.foldl erase s).InForce f := by
  obtain ⟨id, hid⟩ := hf
  exact ⟨id, mem_activeFormulas_eraseAll.2 ⟨hid, hids id (mem_activeFormulas.1 hid).2⟩⟩

theorem InForce.restore (hf : s.InForce f) (key : AtomKey) : (s.restore key).InForce f := by
  obtain ⟨id, hid⟩ := hf
  obtain ⟨hactive, hformula⟩ := mem_activeFormulas.1 hid
  obtain ⟨harena, htop, herased, -⟩ := restore_frame s key
  refine ⟨id, mem_activeFormulas.2 ⟨?_, ?_⟩⟩
  · rw [isActive_iff] at hactive ⊢
    exact ⟨htop ▸ hactive.1, fun he => hactive.2 ((herased id).1 he).1⟩
  · unfold formula? constraint? at hformula ⊢
    rwa [harena]

/-- **No edit of a store erases a pin to a checked kind.** -/
theorem InForce.makeNonWild (hf : s.InForce (.pin x k)) (hk : k ≠ .wild) :
    (s.makeNonWild key region).2.InForce (.pin x k) := by
  by_cases hkey : s.value key = .wild
  · obtain ⟨id, hid⟩ := hf
    exact ⟨id, (activeFormulas_makeNonWild hkey).2 ⟨hid, not_mem_wildForcing (mem_activeFormulas.1 hid).2 hk⟩⟩
  · rwa [makeNonWild_of_ne hkey]

theorem InForce.eraseReason (hf : s.InForce (.pin x k)) (hk : k ≠ .wild) :
    (s.eraseReason reason).2.2.InForce (.pin x k) :=
  hf.eraseAll fun _ hid => not_mem_wildWithReason hid hk

/-! ### Filters -/

theorem Akin.sameFilters (h : s.Akin t) : s.SameFilters t := by
  intro key
  have hbare := congrArg (Option.map Prod.fst) (h.bare key)
  unfold Store.bare at hbare
  rwa [Option.map_map, Option.map_map] at hbare

theorem Reached.permits (h : s.Reached x) : s.Permits x .wild := by
  cases h <;> assumption

end Store

namespace Program

variable {p q : Program} {x key : AtomKey} {k : Kind}

/-- Whatever call is made, a pin to a checked kind stays in force. -/
theorem Changes.inForce_pin (h : p.Changes q) (hk : k ≠ .wild) (hf : p.store.InForce (.pin x k)) :
    q.store.InForce (.pin x k) := by
  cases h with
  | solve => exact hf
  | @makeNonWild key changed q h =>
      have he : _ = q := congrArg Prod.snd (ifKnown_eq_ok h)
      rw [← he]
      exact hf.makeNonWild hk
  | @invalidate key changed q h =>
      have he : _ = q := congrArg Prod.snd (ifKnown_eq_ok h)
      rw [← he]
      cases p.rootCauses.find key with
      | none => exact hf
      | some root => exact (hf.eraseAll fun _ hid => Store.not_mem_wildForcing hid hk).eraseReason hk
  | @restore key changed q h =>
      have he : _ = q := congrArg Prod.snd (ifKnown_eq_ok h)
      rw [← he]
      split
      · exact hf
      · exact hf.restore key

/-- An array of constant size, as its declaration made it. -/
structure Sized (p : Program) (key : AtomKey) : Prop where
  ready : p.Ready
  arr : p.store.InForce (.pin key .arr)
  barred : p.store.forbids key .wild = true
  permitted : p.store.Permits key .arr

theorem keptByCalls_sized (key : AtomKey) : KeptByCalls (Sized · key) :=
  keptByCalls_of_changes fun p q h hp => by
    have hready := keptByCalls_ready.of_changes h hp.ready
    have harr := h.inForce_pin (by decide) hp.arr
    rcases h.eq with rfl | ⟨s, hs, rfl⟩
    · exact hp
    · exact ⟨hready, harr, (Store.FiltersKept.of_sameFilters hs.sameFilters).forbids hp.barred,
        hp.permitted.congr hs.sameFilters⟩

theorem Sized.value_ne_wild (h : p.Sized key) : p.store.value key ≠ .wild := by
  intro hwild
  rcases h.ready with hsteady | hfresh
  · exact Store.not_permits_of_forbids h.barred (hsteady.store.value_eq_wild_iff.1 hwild).permits
  · rw [hfresh.checked] at hwild
    exact nomatch hwild

/-- Once the program is solved, the demand of the declaration is met. -/
theorem Sized.arr_le (h : p.Sized key) (hsteady : p.Steady) : .arr ≤ p.store.value key := by
  obtain ⟨id, hid⟩ := h.arr
  have hmeets : p.store.Meets p.store.value key .arr := hsteady.store.calm (id, _) hid trivial key .arr (.pin key .arr)
  exact hmeets.le h.permitted

/-- What a declaration upholds makes its arrays of constant size what they are. -/
theorem Placed.sized {v : Variable} {o : Object} {level : Level} {n : Nat} (h : p.Placed)
    (hv : v ∈ p.system.declared) (ho : v.object? = some o) (hlevel : level ∈ o.levels)
    (hshape : level.shape = .sizedArray n) : p.Sized level.key := by
  have hfresh := h.sound.recorded.fresh
  have hupheld := (h.sound.declared v hv).levels o ho level hlevel
  have hbarred := hupheld.barred n hshape
  obtain ⟨a, ha, -⟩ := Store.forbids_iff.1 hbarred
  exact ⟨.inr hfresh, hupheld.arr (by rw [hshape]; exact LevelShape.noConfusion), hbarred, a, ha,
    hfresh.permitted _ a ha .arr (by decide)⟩

end Program

namespace Session

variable {s t : Session} {options : Options} {r : Recording}

theorem placed_of_build (h : (start options r).build = .ok (.ok (), s)) : s.program.Placed := by
  obtain ⟨p, hvisit, hlink, -⟩ := exists_of_build h
  rw [hlink]
  exact (walks_visitAll hvisit).placed_link

/-- Calls among which there is one that solves make a session steady. -/
theorem steady_performAll_of_mem {canDump : Bool} {cs : List Call} (hbuilt : s.built = true) (hs : s.program.Ready)
    (hsolve : .solve canDump ∈ cs) (h : s.performAll cs = .ok t) : t.program.Steady := by
  induction cs generalizing s with
  | nil => exact absurd hsolve List.not_mem_nil
  | cons c cs ih =>
      obtain ⟨u, hu, hrest⟩ := Program.exists_of_bind_eq_ok h
      rcases List.mem_cons.1 hsolve with rfl | hsolve
      · obtain ⟨hprogram, hb⟩ := program_solve hbuilt hu
        have hsteady : u.program.Steady := by
          rw [hprogram]
          exact Program.steady_regroup _ (hs.elim (·.store.solve) (·.steady_solve))
        exact (steady_performAll hb hsteady hrest).2
      · obtain ⟨hb, hready⟩ := perform_keeps Program.keptByCalls_ready hbuilt hs hu
        exact ih hb hready hsolve hrest

/-- **Arrays of constant size are never unchecked.**  After any calls on any built session, an
atom that was allocated for an array level of constant size is not unchecked; the one constraint
that says it is at least a plain array is in force, not erased; and if any of the calls solved
the session, it is at least a plain array. -/
theorem sizedArray_checked {cs : List Call} {v : Variable} {o : Object} {level : Level} {n : Nat}
    (hbuild : (start options r).build = .ok (.ok (), s)) (h : s.performAll cs = .ok t)
    (hv : v ∈ t.program.system.declared) (ho : v.object? = some o) (hlevel : level ∈ o.levels)
    (hshape : level.shape = .sizedArray n) :
    t.program.store.value level.key ≠ .wild ∧
    (∃ id, t.program.store.formula? id = some (.pin level.key .arr) ∧ t.program.store.isActive id = true ∧
      ∀ id', t.program.store.formula? id' = some (.pin level.key .arr) → id' = id) ∧
    ((∃ canDump, .solve canDump ∈ cs) → .arr ≤ t.program.store.value level.key) := by
  have hbuilt := built_of_build hbuild
  have hdeclared := (performAll_keeps (P := fun p => p.system.declared = s.program.system.declared)
    (Program.keptByCalls_of_akin fun _ _ _ hp => hp) hbuilt rfl h).2
  have harena := (performAll_keeps (P := fun p => p.store.arena = s.program.store.arena)
    (Program.keptByCalls_of_akin fun _ _ hs hp => hs.arena.trans hp) hbuilt rfl h).2
  have hsized := (placed_of_build hbuild).sized (hdeclared ▸ hv) ho hlevel hshape
  obtain ⟨-, hkept⟩ := performAll_keeps (Program.keptByCalls_sized level.key) hbuilt hsized h
  refine ⟨hkept.value_ne_wild, ?_, fun ⟨canDump, hsolve⟩ =>
    hkept.arr_le (steady_performAll_of_mem hbuilt hsized.ready hsolve h)⟩
  obtain ⟨id, hid⟩ := hkept.arr
  obtain ⟨hactive, hformula⟩ := Store.mem_activeFormulas.1 hid
  refine ⟨id, hformula, hactive, fun id' hid' => ?_⟩
  -- No two constraints say the same, and calls create none.
  unfold Store.formula? Store.constraint? at hformula hid'
  rw [harena] at hformula hid'
  exact (recorded_build hbuild).built.formula?_inj hid' hformula

theorem performAll_eq_getD {cs : List Call} (h : (s.performAll cs).isOk = true) :
    s.performAll cs = .ok ((s.performAll cs).toOption.getD s) := by
  cases hcalls : s.performAll cs with
  | error fault =>
      rw [hcalls] at h
      exact nomatch h
  | ok t => rfl

/-- An array of constant size gets the value of an unchecked pointer, and is asked to be unchecked
itself. -/
def filledArray : Recording where
  units := [{
    file := "a.c"
    events := [
      .declare 0 { localPointer "a" 1 with type := .array (.scalar "int" .integer) (some 4) },
      .declare 1 (localPointer "p" 2), .assign 0 1 none, .wild 0 ⟨"first", none⟩, .wild 1 ⟨"second", none⟩] }]

def filledEdited : Session :=
  ((ofRecording filledArray).performAll [.solve false, .makeNonWild 1, .restore 1, .invalidate 1]).toOption.getD
    (ofRecording filledArray)

/-- The array stays checked, whatever is done about the pointer. -/
theorem filledEdited_checked :
    (start {} filledArray).build = .ok (.ok (), ofRecording filledArray) ∧
    (ofRecording filledArray).performAll [.solve false, .makeNonWild 1, .restore 1, .invalidate 1] = .ok filledEdited ∧
    filledEdited.program.store.value 0 ≠ .wild ∧
    (∃ id, filledEdited.program.store.formula? id = some (.pin 0 .arr) ∧
      filledEdited.program.store.isActive id = true ∧
      ∀ id', filledEdited.program.store.formula? id' = some (.pin 0 .arr) → id' = id) ∧
    .arr ≤ filledEdited.program.store.value 0 := by
  have hbuild : (start {} filledArray).build = .ok (.ok (), ofRecording filledArray) := rfl
  have hcalls : (ofRecording filledArray).performAll [.solve false, .makeNonWild 1, .restore 1, .invalidate 1] =
      .ok filledEdited := performAll_eq_getD (by decide +kernel)
  have hdeclared : (filledEdited.program.system.declared[0]?).bind (·.object?) =
      some ⟨0, "a", [⟨0, .sizedArray 4⟩], "int"⟩ := by decide +kernel
  obtain ⟨v, hv, ho⟩ := Option.bind_eq_some_iff.1 hdeclared
  have hlevel : (⟨0, .sizedArray 4⟩ : Level) ∈ [⟨0, .sizedArray 4⟩] := List.mem_cons_self
  obtain ⟨hchecked, hkept, harr⟩ := sizedArray_checked hbuild hcalls (List.mem_of_getElem? hv) ho hlevel rfl
  exact ⟨hbuild, hcalls, hchecked, hkept, harr ⟨false, List.mem_cons_self⟩⟩

end Session

end PointerKinds
