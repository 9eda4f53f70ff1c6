/-
When releasing an atom fails.

Whatever holds an unchecked atom is erased to release it, but for the equalities that another
atom has its own kind through.  Such an atom is put back together with the released one and
seldom has another reason to be unchecked.  If it has one, it is made unchecked again, and
through the equality that was kept so is the atom that was to be released.

That is the only way to fail, and it can be read off before the edit: the other atom is reached
without passing through the released one.  If it fails, nothing at all is released, since what
was erased handed the unchecked kind to nobody else.
-/
import PointerKinds.Proofs.Session.Agreement
import PointerKinds.Proofs.Session.Events
import PointerKinds.Proofs.Session.Origins
import PointerKinds.Proofs.Solver.Forcing

namespace PointerKinds

namespace Store

variable {s : Store} {key x : AtomKey} {id : ConstraintId} {f : Formula} {region : List AtomKey}

/-- The least set of atoms that the constraints in force make unchecked on ways around an atom. -/
inductive ReachedAround (s : Store) (key : AtomKey) : AtomKey → Prop
  | pin {x : AtomKey} (hx : x ≠ key) (hf : s.InForce (.pin x .wild)) (hp : s.Permits x .wild) :
      ReachedAround s key x
  | join {a b : AtomKey} (hb : b ≠ key) (hf : s.InForce (.join a b)) (ha : ReachedAround s key a)
      (hp : s.Permits b .wild) : ReachedAround s key b
  | joinBack {a b : AtomKey} (ha : a ≠ key) (hf : s.InForce (.join a b)) (hb : ReachedAround s key b)
      (hp : s.Permits a .wild) : ReachedAround s key a
  | flow {a b : AtomKey} (hb : b ≠ key) (hf : s.InForce (.flow a b .wild)) (ha : ReachedAround s key a)
      (hp : s.Permits b .wild) : ReachedAround s key b

/-- An equality that is kept when an atom is released makes it unchecked again: the other side
has its kind through it, and would have it on another way as well. -/
def Reinfects (s : Store) (key : AtomKey) : Prop :=
  ∃ id other, ((id, .join key other) ∈ s.activeFormulas ∨ (id, .join other key) ∈ s.activeFormulas) ∧
    s.forcedBy.get? other = some id ∧ s.ReachedAround key other

theorem ReachedAround.ne (h : s.ReachedAround key x) : x ≠ key := by
  cases h with
  | pin hx | join hx | joinBack hx | flow hx => exact hx

theorem ReachedAround.reached (h : s.ReachedAround key x) : s.Reached x := by
  induction h with
  | pin _ hf hp => exact .pin hf hp
  | join _ hf _ hp ih => exact .join hf ih hp
  | joinBack _ hf _ hp ih => exact .joinBack hf ih hp
  | flow _ hf _ hp ih => exact .flow hf ih hp

theorem Permits.contains {k : Kind} (h : s.Permits x k) : s.atoms.contains x = true := by
  obtain ⟨a, ha, -⟩ := h
  exact Option.isSome_iff_exists.2 ⟨a, ha⟩

/-! ### What stays in force -/

theorem activeFormulas_makeNonWild (hkey : s.value key = .wild) :
    (id, f) ∈ (s.makeNonWild key region).2.activeFormulas ↔
      (id, f) ∈ s.activeFormulas ∧ id ∉ s.wildForcing key := by
  rw [makeNonWild_of_wild hkey]
  show (id, f) ∈ (s.released key (s.regionAround key region)).activeFormulas ↔ _
  exact mem_activeFormulas_released

/-- What does not mention an atom is in force after it was released. -/
theorem Steady.inForce_makeNonWild (h : s.Steady) (hkey : s.value key = .wild) (hf : s.InForce f)
    (hmentions : key ∉ f.mentions) : (s.makeNonWild key region).2.InForce f := by
  obtain ⟨id, hf⟩ := hf
  refine ⟨id, (activeFormulas_makeNonWild hkey).2 ⟨hf, fun hforcing => ?_⟩⟩
  exact hmentions ((h.indexed.mem_wildForcing_iff hf).1 hforcing).1

/-- Ways around an atom stay open. -/
theorem ReachedAround.reached_makeNonWild (h : s.ReachedAround key x) (hs : s.Steady)
    (hkey : s.value key = .wild) (region : List AtomKey) : (s.makeNonWild key region).2.Reached x := by
  have hfilters := sameFilters_makeNonWild s key region
  have hkept : ∀ {f : Formula}, s.InForce f → key ∉ f.mentions → (s.makeNonWild key region).2.InForce f :=
    hs.inForce_makeNonWild hkey
  induction h with
  | pin hx hf hp =>
      exact .pin (hkept hf (by simp [Formula.mentions, Operand.key?, hx.symm])) (hp.congr hfilters)
  | join hb hf ha hp ih =>
      exact .join (hkept hf (by simp [Formula.mentions, Operand.key?, hb.symm, ha.ne.symm])) ih
        (hp.congr hfilters)
  | joinBack ha hf hb hp ih =>
      exact .joinBack (hkept hf (by simp [Formula.mentions, Operand.key?, ha.symm, hb.ne.symm])) ih
        (hp.congr hfilters)
  | flow hb hf ha hp ih =>
      exact .flow (hkept hf (by simp [Formula.mentions, Operand.key?, hb.symm, ha.ne.symm])) ih
        (hp.congr hfilters)

/-! ### The first way into the released atom -/

/-- Whatever is reached after an atom was released is reached on a way around it, or the atom is
made unchecked again. -/
theorem Steady.reachedAround_of_reached (h : s.Steady) (hkey : s.value key = .wild)
    (hx : (s.makeNonWild key region).2.Reached x) : s.ReachedAround key x ∨ s.Reinfects key := by
  have hfilters := (sameFilters_makeNonWild s key region).symm
  have hwild : ∀ {y}, s.ReachedAround key y → s.value y = .wild := fun hy =>
    h.value_eq_wild_iff.2 hy.reached
  -- An equality that was kept although its other side is unchecked is the one that side remembers.
  have hcause : ∀ {id other}, ¬ s.handsOnWild id (.atom other) = true → s.ReachedAround key other →
      s.forcedBy.get? other = some id := fun hnot ho =>
    by_contra fun hne => hnot (handsOnWild_atom.2 ⟨hwild ho, hne⟩)
  induction hx with
  | @pin x hf hp =>
      obtain ⟨id, hid⟩ := hf
      obtain ⟨hact, hkept⟩ := (activeFormulas_makeNonWild hkey).1 hid
      refine .inl (.pin (fun hx => hkept ?_) ⟨id, hact⟩ (hp.congr hfilters))
      exact (h.indexed.mem_wildForcing_iff hact).2
        ⟨by simp [Formula.mentions, Operand.key?, hx], forcesWild_pin.2 hx⟩
  | @join a b hf _ hp ih =>
      obtain ⟨id, hid⟩ := hf
      obtain ⟨hact, hkept⟩ := (activeFormulas_makeNonWild hkey).1 hid
      refine ih.elim (fun ha => ?_) .inr
      by_cases hb : b = key
      · subst hb
        refine .inr ⟨id, a, .inr hact, hcause (fun hhands => hkept ?_) ha, ha⟩
        exact (h.indexed.mem_wildForcing_iff hact).2
          ⟨by simp [Formula.mentions, Operand.key?], forcesWild_join.2 (.inr ⟨ha.ne, rfl, hhands⟩)⟩
      · exact .inl (.join hb ⟨id, hact⟩ ha (hp.congr hfilters))
  | @joinBack a b hf _ hp ih =>
      obtain ⟨id, hid⟩ := hf
      obtain ⟨hact, hkept⟩ := (activeFormulas_makeNonWild hkey).1 hid
      refine ih.elim (fun hb => ?_) .inr
      by_cases ha : a = key
      · subst ha
        refine .inr ⟨id, b, .inl hact, hcause (fun hhands => hkept ?_) hb, hb⟩
        exact (h.indexed.mem_wildForcing_iff hact).2
          ⟨by simp [Formula.mentions, Operand.key?], forcesWild_join.2 (.inl ⟨rfl, hhands⟩)⟩
      · exact .inl (.joinBack ha ⟨id, hact⟩ hb (hp.congr hfilters))
  | @flow a b hf _ hp ih =>
      obtain ⟨id, hid⟩ := hf
      obtain ⟨hact, hkept⟩ := (activeFormulas_makeNonWild hkey).1 hid
      refine ih.elim (fun ha => .inl (.flow (fun hb => hkept ?_) ⟨id, hact⟩ ha (hp.congr hfilters))) .inr
      exact (h.indexed.mem_wildForcing_iff hact).2
        ⟨by simp [Formula.mentions, Operand.key?, hb], forcesWild_flow.2 ⟨hwild ha, hb⟩⟩

/-- Releasing an atom fails exactly if it is made unchecked again. -/
theorem Steady.reached_makeNonWild_iff (h : s.Steady) (hkey : s.value key = .wild) (region : List AtomKey) :
    (s.makeNonWild key region).2.Reached key ↔ s.Reinfects key := by
  constructor
  · intro hreached
    exact (h.reachedAround_of_reached hkey hreached).resolve_left fun hkk => hkk.ne rfl
  · rintro ⟨id, other, hf, hcaused, hother⟩
    have hnot : ¬ s.handsOnWild id (.atom other) = true := fun hhands => (handsOnWild_atom.1 hhands).2 hcaused
    have hp := (h.explained.justified key hkey).permits.congr (sameFilters_makeNonWild s key region)
    have hreached := hother.reached_makeNonWild h hkey region
    rcases hf with hf | hf
    · refine .joinBack ⟨id, (activeFormulas_makeNonWild hkey).2 ⟨hf, fun hforcing => ?_⟩⟩ hreached hp
      rcases forcesWild_join.1 ((h.indexed.mem_wildForcing_iff hf).1 hforcing).2 with ⟨-, hhands⟩ | ⟨hne, -⟩
      · exact hnot hhands
      · exact hne rfl
    · refine .join ⟨id, (activeFormulas_makeNonWild hkey).2 ⟨hf, fun hforcing => ?_⟩⟩ hreached hp
      rcases forcesWild_join.1 ((h.indexed.mem_wildForcing_iff hf).1 hforcing).2 with ⟨he, -⟩ | ⟨-, -, hhands⟩
      · exact hother.ne he
      · exact hnot hhands

/-! ### Nothing is released unless the atom is -/

/-- What was erased handed the unchecked kind to nobody but the released atom. -/
theorem Steady.reached_of_justified (h : s.Steady) (hkey : s.value key = .wild)
    (hreached : (s.makeNonWild key region).2.Reached key) (hx : s.Justified s.forcedBy x) :
    (s.makeNonWild key region).2.Reached x := by
  have hfilters := sameFilters_makeNonWild s key region
  induction hx with
  | @pin x id hc hf hp =>
      by_cases hx : x = key
      · exact hx ▸ hreached
      · refine .pin ⟨id, (activeFormulas_makeNonWild hkey).2 ⟨hf, fun hforcing => hx ?_⟩⟩ (hp.congr hfilters)
        exact forcesWild_pin.1 ((h.indexed.mem_wildForcing_iff hf).1 hforcing).2
  | @join x y id hc hf hp hy ih =>
      by_cases hx : x = key
      · exact hx ▸ hreached
      · refine .joinBack ⟨id, (activeFormulas_makeNonWild hkey).2 ⟨hf, fun hforcing => ?_⟩⟩ ih
          (hp.congr hfilters)
        rcases forcesWild_join.1 ((h.indexed.mem_wildForcing_iff hf).1 hforcing).2 with ⟨he, -⟩ | ⟨-, -, hhands⟩
        · exact hx he
        · exact (handsOnWild_atom.1 hhands).2 hc
  | @joinBack x y id hc hf hp hy ih =>
      by_cases hx : x = key
      · exact hx ▸ hreached
      · refine .join ⟨id, (activeFormulas_makeNonWild hkey).2 ⟨hf, fun hforcing => ?_⟩⟩ ih (hp.congr hfilters)
        rcases forcesWild_join.1 ((h.indexed.mem_wildForcing_iff hf).1 hforcing).2 with ⟨-, hhands⟩ | ⟨-, he, -⟩
        · exact (handsOnWild_atom.1 hhands).2 hc
        · exact hx he
  | @flow x y id hc hf hp hy ih =>
      by_cases hx : x = key
      · exact hx ▸ hreached
      · refine .flow ⟨id, (activeFormulas_makeNonWild hkey).2 ⟨hf, fun hforcing => hx ?_⟩⟩ ih (hp.congr hfilters)
        exact (forcesWild_flow.1 ((h.indexed.mem_wildForcing_iff hf).1 hforcing).2).2

theorem mem_makeNonWild (hkey : s.value key = .wild) : x ∈ (s.makeNonWild key region).1 ↔
    (x ∈ s.regionAround key region ∧ s.value x = .wild) ∧ (s.makeNonWild key region).2.value x ≠ .wild := by
  have henv : ((s.wildForcing key).foldl erase s).env = s.env := (eraseAll_frame s _).2.2.1
  have hvalue : ((s.wildForcing key).foldl erase s).value x = s.value x := by
    unfold value
    rw [henv]
  unfold Store.makeNonWild
  rw [if_pos hkey]
  simp only [List.mem_filter, decide_eq_true_eq, hvalue]
  rfl

/-- The atom is released or nothing is. -/
theorem Steady.isEmpty_makeNonWild (h : s.Steady) (hkey : s.value key = .wild)
    (hregion : ∀ x, x ∈ region ↔ (RootCauses.ofStore s).Same key x) :
    (s.makeNonWild key region).1.isEmpty = true ↔ (s.makeNonWild key region).2.value key = .wild := by
  have hsteady := h.makeNonWild fun _ => hregion
  rw [List.isEmpty_iff, List.eq_nil_iff_forall_not_mem]
  constructor
  · intro hnone
    exact by_contra fun hne =>
      hnone key ((mem_makeNonWild hkey).2 ⟨⟨self_mem_regionAround s key region, hkey⟩, hne⟩)
  · intro hwild x hx
    obtain ⟨⟨-, hxwild⟩, hne⟩ := (mem_makeNonWild hkey).1 hx
    exact hne (hsteady.value_eq_wild_iff.2
      (h.reached_of_justified hkey (hsteady.value_eq_wild_iff.1 hwild) (h.explained.justified x hxwild)))

end Store

namespace Program

variable {p : Program} {key : AtomKey}

theorem makeNonWild_of_known (hreg : p.store.atoms.contains key = true) : p.makeNonWild key =
    .ok (!(p.store.makeNonWild key (p.regionOf key)).1.isEmpty,
      (p.withStore (p.store.makeNonWild key (p.regionOf key)).2).regroup) :=
  if_pos hreg

end Program

namespace Session

variable {s t u : Session} {options : Options} {r : Recording} {key : AtomKey}

/-- **One edit releases an atom unless an equality that is kept makes it unchecked again.**
After any calls on any built session, an unchecked atom is released.  The call is not refused.
It answers that something was released exactly if the atom is checked afterwards, and the atom
is checked unless some equality reinfects it. -/
theorem makeNonWild_releases_iff {cs : List Call} {answer : Except SessionError Bool}
    (hbuild : (start options r).build = .ok (.ok (), s)) (hcalls : s.performAll cs = .ok t)
    (hkey : t.program.store.value key = .wild) (hrelease : t.makeNonWild key = .ok (answer, u)) :
    (∃ changed, answer = .ok changed ∧ (changed = true ↔ u.program.store.value key ≠ .wild)) ∧
    (u.program.store.value key ≠ .wild ↔ ¬ t.program.store.Reinfects key) := by
  have hfresh : s.program.Ready := .inr (recorded_build hbuild).fresh
  obtain ⟨hbuilt, hready⟩ := performAll_keeps Program.keptByCalls_ready (built_of_build hbuild) hfresh hcalls
  have ht : t.program.Steady := hready.resolve_right fun hblank => by
    rw [hblank.checked] at hkey
    exact nomatch hkey
  have hregion := fun x => ht.mem_regionOf (x := x) hkey
  have hknown := Program.makeNonWild_of_known ((ht.store.explained.justified key hkey).permits.contains)
  have hempty := ht.store.isEmpty_makeNonWild hkey hregion
  have hreinfects := ht.store.reached_makeNonWild_iff hkey (t.program.regionOf key)
  rw [← (ht.store.makeNonWild fun _ => hregion).value_eq_wild_iff] at hreinfects
  obtain ⟨e, he, -⟩ | ⟨changed, q, hq, rfl, hu⟩ := edit_cases hbuilt hrelease
  · exact nomatch hknown.symm.trans he
  · obtain ⟨rfl, rfl⟩ := Prod.mk.inj (Except.ok.inj (hknown.symm.trans hq))
    have hstore : u.program.store = (t.program.store.makeNonWild key (t.program.regionOf key)).2 := by
      rw [(refresh_frame hu).1]
      rfl
    rw [hstore]
    refine ⟨⟨_, rfl, ?_⟩, not_congr hreinfects⟩
    rw [Bool.not_eq_true', ← Bool.not_eq_true]
    exact not_congr hempty

/-- Of three pointers, the first is released and does not become unchecked again. -/
theorem threeSolved_releases :
    ((start {} threePointers).build = .ok (.ok (), threeBuilt) ∧
      threeBuilt.performAll [.solve false] = .ok threeSolved ∧ threeSolved.program.store.value 0 = .wild ∧
      threeSolved.makeNonWild 0 = .ok (.ok true, threeReleased)) ∧
    (∃ changed, (.ok true : Except SessionError Bool) = .ok changed ∧
      (changed = true ↔ threeReleased.program.store.value 0 ≠ .wild)) ∧
    (threeReleased.program.store.value 0 ≠ .wild ↔ ¬ threeSolved.program.store.Reinfects 0) := by
  have hbuild : (start {} threePointers).build = .ok (.ok (), threeBuilt) := rfl
  have hcalls : threeBuilt.performAll [.solve false] = .ok threeSolved := by
    unfold performAll
    rw [perform_eq_after (by decide +kernel)]
    rfl
  have hkey : threeSolved.program.store.value 0 = .wild := by decide +kernel
  have hrelease : threeSolved.makeNonWild 0 = .ok (.ok true, threeReleased) :=
    makeNonWild_eq_after (by decide +kernel)
  exact ⟨⟨hbuild, hcalls, hkey, hrelease⟩, makeNonWild_releases_iff hbuild hcalls hkey hrelease⟩

/-- Two pointers are cast to each other, and each is unchecked for a reason of its own. -/
def twiceUnchecked : Recording where
  units := [{
    file := "a.c"
    events := [
      .declare 0 (localPointer "p" 1), .declare 1 (localPointer "q" 2), .wild 0 ⟨"first", none⟩,
      .cast 0 (pointerTo intType) 1 (pointerTo intType) none, .wild 1 ⟨"second", none⟩] }]

/-- The second pointer was made unchecked by the cast, which is therefore kept when the first is
released.  It is unchecked again for its own reason, and makes the first so again: the call
answers that nothing was released. -/
theorem twiceUnchecked_stays :
    (start {} twiceUnchecked).build = .ok (.ok (), ofRecording twiceUnchecked) ∧
    (ofRecording twiceUnchecked).perform (.solve false) =
      .ok ((ofRecording twiceUnchecked).after (.solve false)) ∧
    ((ofRecording twiceUnchecked).after (.solve false)).program.store.value 0 = .wild ∧
    ((ofRecording twiceUnchecked).after (.solve false)).makeNonWild 0 =
      .ok (.ok false, ((ofRecording twiceUnchecked).after (.solve false)).after (.makeNonWild 0)) ∧
    (((ofRecording twiceUnchecked).after (.solve false)).after (.makeNonWild 0)).program.store.value 0 = .wild :=
  ⟨rfl, perform_eq_after (by decide +kernel), by decide +kernel, makeNonWild_eq_after (by decide +kernel),
    by decide +kernel⟩

end Session

end PointerKinds
