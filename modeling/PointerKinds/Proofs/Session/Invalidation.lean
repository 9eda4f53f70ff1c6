/-
What an invalidated reason takes with it.

Invalidating the reason of a group erases what holds its root unchecked, and every constraint
that makes an atom unchecked for this reason; then everything is solved from scratch.  An atom
that is asked to be unchecked several times is so by one constraint, and that is known under the
first reason that is not the default one.  So an atom is kept unchecked by what was asked of it
if that reason is another than the one invalidated, and it may be released if it is the same,
whatever other reasons were given later.
-/
import PointerKinds.Proofs.Session.Building
import PointerKinds.Proofs.Session.Release
import PointerKinds.Proofs.Session.Undo
import PointerKinds.Proofs.Store.Reasons

namespace PointerKinds

open Explanation (keptReason)

/-- The explanations with which it is demanded that an atom is unchecked, in order. -/
def Demand.wildWhys (x : AtomKey) (l : List Demand) : List Explanation :=
  l.filterMap fun
    | .pin key k why => if key = x ∧ k = .wild then some why else none
    | .join .. | .flow .. => none

namespace Demand

variable {x : AtomKey} {l : List Demand} {why : Explanation}

theorem wildWhys_concat (x : AtomKey) (l : List Demand) (d : Demand) :
    wildWhys x (l ++ [d]) = wildWhys x l ++ wildWhys x [d] :=
  List.filterMap_append

theorem wildWhys_pin_self (x : AtomKey) (why : Explanation) : wildWhys x [.pin x .wild why] = [why] := by
  simp [wildWhys]

theorem mem_wildWhys : why ∈ wildWhys x l ↔ .pin x .wild why ∈ l := by
  unfold wildWhys
  rw [List.mem_filterMap]
  constructor
  · rintro ⟨d, hd, he⟩
    cases d with
    | join | flow => exact nomatch he
    | pin key k why' =>
        obtain ⟨⟨rfl, rfl⟩, hwhy⟩ := (Option.ite_none_right_eq_some ..).1 he
        exact Option.some.inj hwhy ▸ hd
  · exact fun h => ⟨_, h, by simp⟩

end Demand

namespace Store

variable {s₀ s t : Store} {l : List Demand} {x key root : AtomKey} {f : Formula} {why : Explanation}
  {whys : List Explanation} {ids : List ConstraintId} {reason : String}

/-! ### The reason that is kept -/

theorem Keeps.addEq_of_ne (h : s.Keeps f whys) (hs : s.Built) {a b : Operand} (hne : Formula.equal a b ≠ f)
    (why : Explanation) : (s.addEq a b why).2.Keeps f whys :=
  (h.intern_of_ne hs (d := ⟨_, why⟩) hne).of_arena_eq (arena_add _ _)

theorem Allocates.keeps (h : s₀.Allocates s) (hs₀ : s₀.Recorded) (h₀ : s₀.Keeps (.pin x .wild) whys) :
    s.Keeps (.pin x .wild) whys := by
  induction h with
  | refl => exact h₀
  | newAtom _ ih | bar _ _ ih | prefer _ _ _ ih => exact ih.of_arena_eq rfl
  | pinArr h key why ih =>
      refine ih.addEq_of_ne (Recorded.built (hs₀.trans h.grows)) (fun he => ?_) why
      exact nomatch (Formula.eq.inj (show Formula.pin key .arr = .pin x .wild from he)).2

/-- **The reason on record is the one that is kept of all demands.** -/
theorem Records.keeps (h : Records {} l s) (x : AtomKey) : s.Keeps (.pin x .wild) (Demand.wildWhys x l) := by
  induction h with
  | refl => exact ⟨fun _ _ hc => (nomatch hc), fun _ => rfl⟩
  | allocate h ht ih => exact ht.keeps h.grows ih
  | @impose s l h d ih =>
      have hs : s.Built := Recorded.built h.grows
      rw [Demand.wildWhys_concat]
      cases d with
      | pin key k why =>
          by_cases hd : key = x ∧ k = .wild
          · obtain ⟨rfl, rfl⟩ := hd
            rw [Demand.wildWhys_pin_self]
            exact (ih.intern hs (d := ⟨.pin key .wild, why⟩) rfl).of_arena_eq (arena_add _ _)
          · have hnone : Demand.wildWhys x [.pin key k why] = [] := by simp [Demand.wildWhys, hd]
            rw [hnone, List.append_nil]
            refine ih.addEq_of_ne hs (fun he => hd ?_) why
            obtain ⟨ha, hk⟩ := Formula.eq.inj (show Formula.pin key k = .pin x .wild from he)
            exact ⟨Operand.atom.inj ha, Operand.kind.inj hk⟩
      | join a b =>
          rw [show Demand.wildWhys x [.join a b] = [] from rfl, List.append_nil]
          refine ih.addEq_of_ne hs (fun he => ?_) {}
          rcases equal_join a b with hjoin | hjoin <;> exact nomatch (Formula.eq.inj (hjoin.symm.trans he)).2
      | flow a b =>
          rw [show Demand.wildWhys x [.flow a b] = [] from rfl, List.append_nil]
          show (flowingKinds.foldl (·.addFlow a b ·) s).Keeps _ _
          rw [foldl_addFlow]
          have h₁ := ih.addFlow hs a b .arr
          have h₂ := h₁.addFlow (hs.addFlow a b .arr) a b .ntArr
          exact h₂.addFlow ((hs.addFlow a b .arr).addFlow a b .ntArr) a b .wild

/-- What is demanded is in force. -/
theorem Records.inForce_pin (h : Records {} l s) (hmem : .pin x .wild why ∈ l) : s.InForce (.pin x .wild) := by
  induction h with
  | refl => exact absurd hmem List.not_mem_nil
  | allocate h ht ih => exact ht.grows.inForce (Recorded.fresh h.grows) (ih hmem)
  | @impose s l h d ih =>
      have hs : s.Fresh := Recorded.fresh h.grows
      rcases List.mem_append.1 hmem with hmem | hmem
      · exact (Grows.refl.impose d).inForce hs (ih hmem)
      · obtain rfl := List.mem_singleton.1 hmem
        exact ((hs.imposes_pin x .wild why).inForce _).2 (.inr rfl)

/-! ### Erasing a reason -/

/-- The store after the reason of a root was erased. -/
def dropped (s : Store) (root : AtomKey) (reason : String) : Store :=
  (((s.wildForcing root).foldl erase s).eraseReason reason).2.2

theorem Steady.dropped (h : s.Steady) (root : AtomKey) (reason : String) : (s.dropped root reason).Steady :=
  steady_eraseReason h.indexed h.demand _ _

theorem sameFilters_dropped (s : Store) (root : AtomKey) (reason : String) :
    s.SameFilters (s.dropped root reason) := by
  have herase : ∀ (s : Store) (ids : List ConstraintId), s.SameFilters (ids.foldl erase s) := fun s ids =>
    map_eraseAll forbidden_atom_erase ids s
  exact (herase s _).trans (herase _ _)

/-- A pin of another atom stays in force if it is known under another reason. -/
theorem Steady.inForce_dropped (h : s.Steady) (hx : x ≠ root) (hpin : s.InForce (.pin x .wild))
    (hreason : ∀ id c, s.constraint? id = some c → c.formula = .pin x .wild → c.why.reason ≠ reason) :
    (s.dropped root reason).InForce (.pin x .wild) := by
  obtain ⟨id, hid⟩ := hpin
  have hroot : id ∉ s.wildForcing root := fun hforcing =>
    hx (forcesWild_pin.1 ((h.indexed.mem_wildForcing_iff hid).1 hforcing).2)
  have hkept := mem_activeFormulas_eraseAll.2 ⟨hid, hroot⟩
  -- Of the rest only constraints with the reason are erased, and erasing leaves the explanations alone.
  refine ⟨id, ?_⟩
  show (id, _) ∈ ((((s.wildForcing root).foldl erase s).wildWithReason reason).foldl erase
    ((s.wildForcing root).foldl erase s)).activeFormulas
  refine mem_activeFormulas_eraseAll.2 ⟨hkept, fun hmem => ?_⟩
  obtain ⟨c, hc, hformula⟩ := Option.map_eq_some_iff.1 (mem_activeFormulas.1 hid).2
  have harena : ((s.wildForcing root).foldl erase s).arena = s.arena := (eraseAll_frame s _).1
  have hsame := (List.mem_filter.1 hmem).2
  unfold constraint? at hsame hc
  rw [harena, hc] at hsame
  simp only [Bool.and_eq_true, beq_iff_eq] at hsame
  exact hreason id c hc hformula hsame.1

end Store

namespace Program

variable {p q : Program} {key root x : AtomKey} {changed : Bool}

/-- No call creates a constraint or explains one anew. -/
theorem keptByCalls_arena (arena : List Constraint) : KeptByCalls fun p => p.store.arena = arena where
  solve _ h := h
  makeNonWild p key changed q h hq := by
    have he : _ = q := congrArg Prod.snd (ifKnown_eq_ok hq)
    rw [← he]
    exact (Store.arena_makeNonWild _ _ _).trans h
  invalidate p key changed q h hq := by
    have he : _ = q := congrArg Prod.snd (ifKnown_eq_ok hq)
    rw [← he]
    cases p.rootCauses.find key with
    | none => exact h
    | some root => exact ((Store.eraseAll_frame _ _).1.trans (Store.eraseAll_frame p.store _).1).trans h
  restore p key changed q h hq := by
    have he : _ = q := congrArg Prod.snd (ifKnown_eq_ok hq)
    rw [← he]
    split
    · exact h
    · exact (Store.akin_restore p.store key).arena.trans h

theorem store_invalidate {why : Explanation} (hroot : p.rootCauses.find key = some root)
    (hwhy : p.rootCauses.reason root = some why) (hq : p.invalidate key = .ok (changed, q)) :
    q.store = p.store.dropped root why.reason := by
  have he : _ = q := congrArg Prod.snd (ifKnown_eq_ok hq)
  rw [hroot] at he
  rw [← he]
  simp only [hwhy]
  rfl

end Program

namespace Session

variable {s t u : Session} {options : Options} {r : Recording} {key root x : AtomKey} {f : Formula}

/-- Solving withdraws nothing. -/
theorem inForce_solves {cs : List Call} (hcs : ∀ c ∈ cs, ∃ canDump, c = .solve canDump) (hbuilt : s.built = true)
    (hf : s.program.store.InForce f) (h : s.performAll cs = .ok t) : t.program.store.InForce f := by
  induction cs generalizing s with
  | nil => exact Except.ok.inj h ▸ hf
  | cons c cs ih =>
      obtain ⟨⟨canDump, rfl⟩, hrest⟩ := List.forall_mem_cons.1 hcs
      obtain ⟨u, hu, h⟩ := Program.exists_of_bind_eq_ok h
      obtain ⟨hprogram, hb⟩ := program_solve hbuilt hu
      refine ih hrest hb ?_ h
      rw [hprogram]
      exact hf

/-- **Invalidating a reason spares what is demanded for another.**  A session was built and
solved, or it was edited too and what is demanded of an atom is still in force.  The reason is
invalidated that a group of unchecked atoms has from its root.  An atom other than the root is
demanded to be unchecked, and of the reasons given with these demands the one that is kept is
another.  The call is not refused, and if the atom was unchecked before, it is unchecked
after. -/
theorem invalidate_spares {cs : List Call} {why : Explanation} {answer : Except SessionError Bool}
    (hbuild : (start options r).build = .ok (.ok (), s)) (hcalls : s.performAll cs = .ok t)
    (hkey : t.program.store.value key = .wild) (hroot : t.program.rootCauses.find key = some root)
    (hwhy : t.program.rootCauses.reason root = some why)
    (hdemanded : Demand.wildWhys x (demands options r) ≠ [])
    (hother : keptReason (Demand.wildWhys x (demands options r)) ≠ why.reason)
    (hstands : (∀ c ∈ cs, ∃ canDump, c = .solve canDump) ∨ t.program.store.InForce (.pin x .wild))
    (hx : x ≠ root) (hwild : t.program.store.value x = .wild) (hinvalidate : t.invalidate key = .ok (answer, u)) :
    (∃ changed, answer = .ok changed) ∧ u.program.store.value x = .wild := by
  have hrecords := records_build hbuild
  have hfresh : s.program.Ready := .inr (recorded_build hbuild).fresh
  have hbuilt := built_of_build hbuild
  obtain ⟨hbuilt', hready⟩ := performAll_keeps Program.keptByCalls_ready hbuilt hfresh hcalls
  have ht : t.program.Steady := hready.resolve_right fun hblank => by
    rw [hblank.checked] at hwild
    exact nomatch hwild
  have hpin : t.program.store.InForce (.pin x .wild) := by
    obtain ⟨why, hmem⟩ := List.exists_mem_of_ne_nil _ hdemanded
    exact hstands.elim
      (fun hcs => inForce_solves hcs hbuilt (hrecords.inForce_pin (Demand.mem_wildWhys.1 hmem)) hcalls) id
  have harena : t.program.store.arena = s.program.store.arena :=
    (performAll_keeps (Program.keptByCalls_arena _) hbuilt rfl hcalls).2
  have hkeeps := (hrecords.keeps x).of_arena_eq harena
  have hknown : t.program.store.atoms.contains key = true :=
    (ht.store.explained.justified key hkey).permits.contains
  obtain ⟨e, he, -⟩ | ⟨changed, q, hq, rfl, hu⟩ := edit_cases hbuilt' hinvalidate
  · exact nomatch he.symm.trans (if_pos hknown)
  · refine ⟨⟨changed, rfl⟩, ?_⟩
    rw [(refresh_frame hu).1]
    show q.store.value x = .wild
    rw [Program.store_invalidate hroot hwhy hq]
    have hdropped := ht.store.dropped root why.reason
    refine hdropped.value_eq_wild_iff.2 (.pin (ht.store.inForce_dropped hx hpin fun id c hc hf => ?_) ?_)
    · rw [hkeeps.reason id c hc hf]
      exact hother
    · exact (ht.store.explained.justified x hwild).permits.congr (Store.sameFilters_dropped _ _ _)

/-! ### Two pointers, two reasons -/

/-- A pointer is unchecked for one reason, and another for two. -/
def twoReasons (earlier later : String) : Recording where
  units := [{
    file := "a.c"
    events := [
      .declare 0 (localPointer "p" 1), .declare 1 (localPointer "q" 2), .wild 0 ⟨"first", none⟩,
      .wild 1 ⟨earlier, none⟩, .wild 1 ⟨later, none⟩] }]

/-- The session with two reasons after it was built and solved. -/
def twoReasonsSolved (earlier later : String) : Session :=
  (ofRecording (twoReasons earlier later)).after (.solve false)

/-- The second pointer is unchecked for a reason of its own first, and spared. -/
theorem twoReasons_spared :
    ((start {} (twoReasons "second" "first")).build = .ok (.ok (), ofRecording (twoReasons "second" "first")) ∧
      (ofRecording (twoReasons "second" "first")).performAll [.solve false] =
        .ok (twoReasonsSolved "second" "first") ∧
      (twoReasonsSolved "second" "first").program.rootCauses.find 0 = some 0 ∧
      (twoReasonsSolved "second" "first").program.rootCauses.reason 0 = some ⟨"first", none⟩ ∧
      (twoReasonsSolved "second" "first").invalidate 0 =
        .ok (.ok true, (twoReasonsSolved "second" "first").after (.invalidate 0))) ∧
    (∃ changed, (.ok true : Except SessionError Bool) = .ok changed) ∧
    ((twoReasonsSolved "second" "first").after (.invalidate 0)).program.store.value 1 = .wild := by
  have hbuild : (start {} (twoReasons "second" "first")).build =
      .ok (.ok (), ofRecording (twoReasons "second" "first")) := rfl
  have hcalls : (ofRecording (twoReasons "second" "first")).performAll [.solve false] =
      .ok (twoReasonsSolved "second" "first") := by
    unfold performAll
    rw [perform_eq_after (by decide +kernel)]
    rfl
  have hinvalidate : (twoReasonsSolved "second" "first").invalidate 0 =
      .ok (.ok true, (twoReasonsSolved "second" "first").after (.invalidate 0)) :=
    invalidate_eq_after (by decide +kernel)
  have hroot : (twoReasonsSolved "second" "first").program.rootCauses.find 0 = some 0 := by decide +kernel
  have hwhy : (twoReasonsSolved "second" "first").program.rootCauses.reason 0 = some ⟨"first", none⟩ := by
    decide +kernel
  exact ⟨⟨hbuild, hcalls, hroot, hwhy, hinvalidate⟩,
    invalidate_spares hbuild hcalls (by decide +kernel) hroot hwhy (by decide +kernel) (by decide +kernel)
      (.inl (by simp)) (by decide) (by decide +kernel) hinvalidate⟩

/-- Invalidating the first reason releases the second pointer too, although something demands it
unchecked for another reason: that came later, and was not kept. -/
theorem twoReasons_dropped :
    ((start {} (twoReasons "first" "second")).build = .ok (.ok (), ofRecording (twoReasons "first" "second")) ∧
      (ofRecording (twoReasons "first" "second")).solve false =
        .ok (.ok (ofRecording (twoReasons "first" "second")).program.solve.1, twoReasonsSolved "first" "second") ∧
      (twoReasonsSolved "first" "second").program.store.value 0 = .wild ∧
      (twoReasonsSolved "first" "second").program.rootCauses.find 0 = some 0 ∧
      (twoReasonsSolved "first" "second").program.rootCauses.reason 0 = some ⟨"first", none⟩ ∧
      (twoReasonsSolved "first" "second").program.store.value 1 = .wild ∧
      .pin 1 .wild ⟨"second", none⟩ ∈ demands {} (twoReasons "first" "second") ∧
      (twoReasonsSolved "first" "second").invalidate 0 =
        .ok (.ok true, (twoReasonsSolved "first" "second").after (.invalidate 0))) ∧
    ((twoReasonsSolved "first" "second").after (.invalidate 0)).program.store.value 1 = .ptr :=
  ⟨⟨rfl, solve_eq_after (by decide +kernel), by decide +kernel, by decide +kernel, by decide +kernel,
      by decide +kernel, by decide +kernel, invalidate_eq_after (by decide +kernel)⟩, by decide +kernel⟩

end Session

end PointerKinds
