/-
Releasing one group, against solving the whole program again.

After the first solution of a session, releasing an atom solves its group alone.  The atoms
outside keep their kinds, and may keep more than solving everything again would give them:
an array of constant size that an unchecked pointer was assigned to stays null-terminated
after the pointer was released.  The unchecked atoms are the same in any case, and all kinds
are if the first solution left nothing unsatisfied and solving everything again leaves no
flow of plain arrays unsatisfied.
-/
import PointerKinds.Proofs.Session.Reachability
import PointerKinds.Proofs.Solver.Agreement

namespace PointerKinds

namespace Store

variable {s : Store} {key x : AtomKey} {region : List AtomKey}

/-- The region around an unchecked atom is its group. -/
theorem Steady.mem_regionAround_iff (h : s.Steady) (hkey : s.value key = .wild)
    (hregion : ∀ x, x ∈ region ↔ (RootCauses.ofStore s).Same key x) :
    x ∈ s.regionAround key region ↔ x ∈ region := by
  by_cases hx : s.value x = .wild
  · rw [h.mem_regionAround hkey hregion hx, hregion]
  · have hnot : x ∉ region := by
      intro hmem
      obtain ⟨l, -, hl⟩ := (hregion x).1 hmem
      exact hx (mem_wildAtoms.1 ((RootCauses.contains_ofStore s x).1 (RootCauses.contains_iff.2 ⟨l, hl⟩)))
    refine iff_of_false (fun hmem => ?_) hnot
    unfold regionAround at hmem
    rw [← SortedSet.mem_def, SortedSet.mem_ofList, List.mem_cons, List.mem_filter] at hmem
    rcases hmem with rfl | hmem
    · exact hx hkey
    · exact hnot hmem.1

theorem holds_of_all {E : AtomKey → Kind} {f : Formula}
    (h : s.activeFormulas.all (fun c => c.2.holds E) = true) (hf : s.InForce f) : f.holds E = true := by
  obtain ⟨id, hf⟩ := hf
  exact List.all_eq_true.1 h (id, f) hf

theorem flowsResolved_iff (hs : s.Indexed) : s.FlowsResolved key ↔
    ∀ a b, (s.rewound key).InForce (.flow a b .arr) →
      (Formula.flow a b .arr).holds (s.rewound key).solve.2.value = true := by
  unfold FlowsResolved Run.FlowsMet
  refine forall₃_congr fun a b _ => ?_
  simp only [Formula.holds, Formula.equalityHolds, Bool.or_eq_true, bne_iff_ne, ne_eq,
    Formula.truth_atomKind_eq_yes, decide_eq_true_eq, value_solve_rewound hs]
  exact Decidable.imp_iff_not_or

end Store

namespace Session

variable {s t u : Session} {options : Options} {r : Recording} {key : AtomKey}

/-- Releasing an unchecked atom of a solved session releases its group in the store. -/
theorem store_makeNonWild (hbuilt : t.built = true) (ht : t.program.Steady)
    (hkey : t.program.store.value key = .wild) (h : t.perform (.makeNonWild key) = .ok u) :
    u.program.store = (t.program.store.makeNonWild key (t.program.regionOf key)).2 := by
  have hreg : t.program.store.atoms.contains key = true := by
    obtain ⟨a, ha, -⟩ := (ht.store.explained.justified key hkey).permits
    exact Option.isSome_iff_exists.2 ⟨a, ha⟩
  obtain ⟨-, ⟨⟨e, he⟩, -⟩ | ⟨changed, he⟩⟩ := program_edit hbuilt h
  · unfold Program.makeNonWild Program.ifKnown at he
    rw [if_pos hreg] at he
    exact nomatch he
  · have hprogram : _ = u.program := congrArg Prod.snd (Program.ifKnown_eq_ok he)
    rw [← hprogram]
    rfl

/-- **Releasing a group agrees with solving again, up to what stays outside.**  In a session
right after its first solution, an unchecked atom is released.  Then the unchecked atoms are
those that solving everything again makes so.  If solving everything again satisfies every
flow of plain arrays, then all kinds agree exactly if nothing outside the group had more than
it gives; and if the first solution left nothing unsatisfied, they do agree. -/
theorem makeNonWild_agrees {canDump : Bool} (hbuild : (start options r).build = .ok (.ok (), s))
    (hsolve : s.perform (.solve canDump) = .ok t) (hkey : t.program.store.value key = .wild)
    (hedit : t.perform (.makeNonWild key) = .ok u) :
    (∀ x, u.program.store.value x = .wild ↔
      (t.program.store.rewound key).solve.2.value x = .wild) ∧
    ((∀ a b, (t.program.store.rewound key).InForce (.flow a b .arr) →
        (Formula.flow a b .arr).holds (t.program.store.rewound key).solve.2.value = true) →
      ((∀ x, u.program.store.value x = (t.program.store.rewound key).solve.2.value x) ↔
        ∀ x, x ∉ t.program.regionOf key →
          t.program.store.value x ≤ (t.program.store.rewound key).solve.2.value x) ∧
      (s.program.solve.1.isSolved = true →
        ∀ x, u.program.store.value x = (t.program.store.rewound key).solve.2.value x)) := by
  have hfresh : s.program.store.Fresh := (recorded_build hbuild).fresh
  obtain ⟨hbuilt, ht⟩ := steady_of_build hbuild hsolve
  have hstore : t.program.store = s.program.store.solve.2 := by
    rw [(program_solve (built_of_build hbuild) hsolve).1]
    rfl
  have hd : t.program.store.Demanding := by
    rw [hstore]
    exact hfresh.demanding.solve
  have hregion := fun x => ht.mem_regionOf (x := x) hkey
  rw [store_makeNonWild hbuilt ht hkey hedit]
  refine ⟨fun x => ht.store.value_makeNonWild_eq_wild_iff hkey hregion, fun hflows => ?_⟩
  have hmet := (Store.flowsResolved_iff hd.indexed).2 hflows
  simp only [Store.value_solve_rewound hd.indexed]
  constructor
  · rw [Store.makeNonWild_eq_iff ht.store hd hkey hregion hmet]
    simp only [ht.store.mem_regionAround_iff hkey hregion]
  · intro hsolved x
    rw [hstore] at hkey hregion hmet ⊢
    exact hfresh.makeNonWild_eq hsolved hkey hregion hmet x

/-! ### Concrete sessions -/

/-- The session on three pointers after it was solved, and after the first group was released. -/
def threeSolved : Session := threeBuilt.after (.solve false)

def threeReleased : Session := threeSolved.after (.makeNonWild 0)

/-- Of three pointers, the first two are released: everything agrees. -/
theorem threePointers_agrees :
    ((start {} threePointers).build = .ok (.ok (), threeBuilt) ∧
      threeBuilt.perform (.solve false) = .ok threeSolved ∧
      threeSolved.program.store.value 0 = .wild ∧
      threeSolved.perform (.makeNonWild 0) = .ok threeReleased) ∧
    ∀ x, threeReleased.program.store.value x =
      (threeSolved.program.store.rewound 0).solve.2.value x := by
  have hbuild : (start {} threePointers).build = .ok (.ok (), threeBuilt) := rfl
  have hsolve : threeBuilt.perform (.solve false) = .ok threeSolved :=
    perform_eq_after (by decide +kernel)
  have hkey : threeSolved.program.store.value 0 = .wild := by decide +kernel
  have hedit : threeSolved.perform (.makeNonWild 0) = .ok threeReleased :=
    perform_eq_after (by decide +kernel)
  have hall : (threeSolved.program.store.rewound 0).activeFormulas.all (fun c =>
      c.2.holds (threeSolved.program.store.rewound 0).solve.2.value) = true := by
    decide +kernel
  have hagrees := (makeNonWild_agrees hbuild hsolve hkey hedit).2 fun a b hf =>
    Store.holds_of_all hall hf
  exact ⟨⟨hbuild, hsolve, hkey, hedit⟩, hagrees.2 (by decide +kernel)⟩

/-- An unchecked pointer is assigned to an array of constant size. -/
def sizedArray : Recording where
  units := [{
    file := "a.c"
    events := [
      .declare 0 { localPointer "a" 1 with type := .array (.scalar "int" .integer) (some 4) },
      .declare 1 (localPointer "p" 2), .assign 0 1 none, .wild 1 ⟨"why", none⟩] }]

/-- The array may not be unchecked and rises as far as it may; it stays there when the pointer is
released, but solving again leaves it a plain array. -/
theorem sizedArray_differs :
    (start {} sizedArray).build = .ok (.ok (), ofRecording sizedArray) ∧
    (ofRecording sizedArray).perform (.solve false) = .ok ((ofRecording sizedArray).after (.solve false)) ∧
    ((ofRecording sizedArray).after (.solve false)).program.store.value 1 = .wild ∧
    ((ofRecording sizedArray).after (.solve false)).perform (.makeNonWild 1) =
      .ok (((ofRecording sizedArray).after (.solve false)).after (.makeNonWild 1)) ∧
    (((ofRecording sizedArray).after (.solve false)).after (.makeNonWild 1)).program.store.value 0 = .ntArr ∧
    (((ofRecording sizedArray).after (.solve false)).program.store.rewound 1).solve.2.value 0 = .arr :=
  ⟨rfl, perform_eq_after (by decide +kernel), by decide +kernel, perform_eq_after (by decide +kernel),
    by decide +kernel, by decide +kernel⟩

/-- A null-terminated array is wanted on a cycle, and two ways lead from a plain array to
pointer 3: one by way of the cycle, the other by way of pointer 1, which is outside the group
of pointer 7. -/
def crossroads : Recording where
  units := [{
    file := "a.c"
    events := [
      .declare 0 { localPointer "a" 1 with type := .array (.scalar "int" .integer) (some 4) },
      .declare 1 (localPointer "v" 2), .declare 2 (localPointer "u" 3), .declare 3 (localPointer "d" 4),
      .declare 4 (localPointer "x" 5),
      .declare 5 { localPointer "w" 6 with type := .pointer (.scalar "int" .integer) (some .ntArray) },
      .declare 6 (localPointer "f" 7), .declare 7 (localPointer "k" 8),
      .assign 2 1 none, .assign 3 2 none, .assign 4 0 none, .assign 5 4 none, .assign 6 5 none,
      .assign 3 6 none, .assign 1 0 none, .assign 2 5 none, .assign 4 5 none, .assign 4 7 none,
      .wild 7 ⟨"why", none⟩] }]

/-- It is not enough that the first solution leaves nothing unsatisfied.  Which flow to pointer 3
is fired first depends on whether pointer 1 is known to be an array from the start, and the
one that is fired is blocked. -/
theorem crossroads_differs :
    (start {} crossroads).build = .ok (.ok (), ofRecording crossroads) ∧
    (ofRecording crossroads).program.solve.1.isSolved = true ∧
    ((ofRecording crossroads).after (.solve false)).program.store.value 7 = .wild ∧
    (((ofRecording crossroads).after (.solve false)).after (.makeNonWild 7)).program.store.value 3 = .ptr ∧
    (((ofRecording crossroads).after (.solve false)).program.store.rewound 7).solve.2.value 3 = .arr :=
  ⟨rfl, by decide +kernel⟩

end Session

end PointerKinds
