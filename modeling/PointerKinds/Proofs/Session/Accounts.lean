/-
Statistics and diagnostics agree.

Both are read off one program, the ones along the places of its atoms and the others along the
groups of those that are unchecked.  They agree while the two are in step: what is grouped is
unchecked, and what has a place is registered.  Until the program is solved nothing is grouped
and nothing is unchecked, however far a build came.  From then on whatever changes the kind of an
atom groups all of them anew; and as nothing but a declaration or a call registers atoms, which
files them, solving and editing leave the places alone.
-/
import PointerKinds.Proofs.Report.Counting
import PointerKinds.Proofs.Session.Mirror
import PointerKinds.Proofs.Session.Placement

namespace PointerKinds

namespace Program

variable {p : Program}

/-- The groups are of the unchecked atoms, and the places are of the registered ones. -/
structure InStep (p : Program) : Prop where
  grouped : ∀ key, p.rootCauses.contains key = true ↔ p.store.value key = .wild
  located : ∀ key, p.atomLocations.contains key = true ↔ p.store.atoms.contains key = true

/-- A program that was declared and linked, but not solved. -/
theorem Placed.inStep (h : p.Placed) (hcauses : p.rootCauses = {}) : p.InStep where
  grouped key := by
    have hchecked : p.store.value key = .ptr := h.sound.recorded.fresh.checked key
    rw [hcauses, hchecked]
    exact iff_of_false Bool.false_ne_true Kind.noConfusion
  located key := (h.located key).trans (h.sound.packed key).symm

theorem keptByCalls_inStep : KeptByCalls InStep :=
  keptByCalls_of_akin fun _ s hs hp =>
    { grouped := fun key => (RootCauses.contains_ofStore s key).trans Store.mem_wildAtoms
      located := fun key => (hp.located key).trans (Bool.eq_iff_iff.1 (hs.contains key)).symm }

theorem keptThroughout_inStep (options : Options) (r : Recording) :
    KeptThroughout options r (Walks { options }) InStep :=
  keptThroughout_of_walks
    (fun p h => h.placed_link.inStep (p.relinks_link.rootCauses.trans h.extends.rootCauses)) keptByCalls_inStep

/-- Counted along the places or along the groups, a visited file has the same unchecked atoms. -/
theorem InStep.countP_wild (h : p.InStep) (file : String) :
    (p.atomLocations.entries.countP fun e =>
      decide (e.2.file = file ∧ p.store.value e.1 = .wild) && p.files.contains e.2.file) =
    p.rootCauses.keys.countP (p.wildReport.declaresIn file) := by
  refine SortedMap.countP_entries_eq p.rootCauses.label.nodup_keys fun key => ?_
  have hkey : key ∈ p.rootCauses.keys ↔ p.store.value key = .wild :=
    (SortedMap.mem_keys_iff ..).trans (h.grouped key)
  simp only [hkey, WildReport.declaresIn_iff, Bool.and_eq_true, decide_eq_true_eq]
  constructor
  · rintro ⟨l, hl, ⟨hfile, hwild⟩, hvisited⟩
    exact ⟨hwild, l, hl, hvisited, hfile⟩
  · rintro ⟨hwild, l, hl, hvisited, hfile⟩
    exact ⟨l, hl, ⟨hfile, hwild⟩, hvisited⟩

/-- Counted along the places or as registered, the visited files have the same atoms. -/
theorem InStep.countP_located (h : p.InStep) :
    (p.atomLocations.entries.countP fun e => p.files.contains e.2.file) =
    p.store.atoms.keys.countP fun key => (p.atomLocations.get? key).any fun l => p.files.contains l.file := by
  refine SortedMap.countP_entries_eq p.store.atoms.nodup_keys fun key => ?_
  rw [Option.any_eq_true, SortedMap.mem_keys_iff, ← h.located key]
  refine (and_iff_right_of_imp ?_).symm
  rintro ⟨l, hl, -⟩
  exact Option.isSome_iff_exists.2 ⟨l, hl⟩

/-- Every registered atom has exactly one place. -/
theorem InStep.existsUnique_location (h : p.InStep) {key : AtomKey} (hkey : p.store.atoms.contains key = true) :
    ∃! l, (key, l) ∈ p.atomLocations.entries := by
  obtain ⟨l, hl⟩ := Option.isSome_iff_exists.1 ((h.located key).2 hkey)
  refine ⟨l, (SortedMap.mem_entries_iff ..).2 hl, fun l' hl' => ?_⟩
  exact Option.some.inj (((SortedMap.mem_entries_iff ..).1 hl').symm.trans hl)

end Program

namespace Session

variable {t : Session} {options : Options} {r : Recording}

/-- Through all requests, granted or refused, groups and places stay in step with the store. -/
theorem inStep_respondAll {requests : List Request} {replies : List (Except SessionError Reply)}
    (h : (start options r).respondAll requests = .ok (replies, t)) : t.program.InStep := by
  have hkept := satisfies_respondAll (Program.keptThroughout_inStep options r) h
  cases hb : t.built with
  | true => exact hkept.built hb
  | false =>
      have hwalks := hkept.unbuilt hb
      exact hwalks.placed.inStep hwalks.extends.rootCauses

/-- **Statistics and diagnostics agree.**  After any requests on any session, with the
diagnostics of its program made from nothing: a file has as many of them as the statistics have
unchecked atoms of it; the totals are the sums over the files, and count the registered atoms
whose place is in a visited file; every registered atom has exactly one place; and no more
diagnostics are of root causes than there are roots. -/
theorem statistics_agree {requests : List Request} {replies : List (Except SessionError Reply)} {limit added : Nat}
    {ds : Diagnostics} (h : (start options r).respondAll requests = .ok (replies, t))
    (hds : Diagnostics.populate (∅ : SortedMap String (List Diagnostic)) limit t.program.wildReport = .ok (ds, added)) :
    (∀ file, (ds.forFile file).length = ((Statistics.ofProgram t.program).files.getD file {}).wild) ∧
    (Statistics.ofProgram t.program).total = (Statistics.ofProgram t.program).files.values.foldl .merge {} ∧
    (Statistics.ofProgram t.program).total.total =
      (t.program.store.atoms.keys.countP fun key =>
        (t.program.atomLocations.get? key).any fun l => t.program.files.contains l.file) ∧
    (∀ key, t.program.store.atoms.contains key = true → ∃! l, (key, l) ∈ t.program.atomLocations.entries) ∧
    ((SortedMap.values ds).flatten.countP fun d => d.severity = .rootCause) ≤ (Statistics.ofProgram t.program).roots := by
  have hstep := inStep_respondAll h
  refine ⟨fun file => ?_, Statistics.total_ofProgram _, ?_, fun key => hstep.existsUnique_location, ?_⟩
  · rw [Diagnostics.forFile_populate hds, List.length_map, ← List.countP_eq_length_filter,
      WildReport.countP_diagnostics, Statistics.wild_ofProgram]
    exact (hstep.countP_wild file).symm
  · rw [Statistics.total_total_ofProgram, hstep.countP_located]
  · rw [(Diagnostics.perm_populate hds).countP_eq, List.countP_append, List.countP_map, Statistics.roots_ofProgram]
    refine Nat.le_trans (Nat.le_of_eq ?_) t.program.wildReport.countP_rootCause_le
    refine List.countP_congr fun d _ => ?_
    simp only [Function.comp, Diagnostic.severity_limitNotes]

/-- Two units.  In the first, an unchecked pointer is assigned to another; in the second, one
pointer is declared in the unit and an unchecked one in a header, which is no unit. -/
def twoUnits : Recording where
  units := [
    { file := "a.c"
      events := [
        .declare 0 (localPointer "p" 1), .declare 1 (localPointer "q" 2), .assign 1 0 none, .wild 0 ⟨"first", none⟩] },
    { file := "b.c"
      events := [
        .declare 0 { localPointer "r" 1 with location := { (localPointer "r" 1).location with file := "b.c" } },
        .declare 1 { localPointer "s" 1 with location := { (localPointer "s" 1).location with file := "b.h" } },
        .wild 1 ⟨"second", none⟩] }]

/-- The session after it was built twice and solved. -/
def twoUnitsSolved : Session := (start {} twoUnits).afterAll [.build, .build, .call (.solve false)]

/-- Two of the three atoms in the visited files are unchecked, and one of them is a root. -/
theorem twoUnitsSolved_agree :
    ∃ replies, (start {} twoUnits).respondAll [.build, .build, .call (.solve false)] = .ok (replies, twoUnitsSolved) ∧
    Diagnostics.populate (∅ : SortedMap String (List Diagnostic)) 3 twoUnitsSolved.program.wildReport =
      .ok (twoUnitsSolved.diagnostics, 2) ∧
    (twoUnitsSolved.diagnostics.forFile "a.c").length = 2 ∧
    (Statistics.ofProgram twoUnitsSolved.program).total.total = 3 ∧
    (Statistics.ofProgram twoUnitsSolved.program).total =
      (Statistics.ofProgram twoUnitsSolved.program).files.values.foldl .merge {} ∧
    (∃! l, (3, l) ∈ twoUnitsSolved.program.atomLocations.entries) ∧
    ((SortedMap.values twoUnitsSolved.diagnostics).flatten.countP fun d => d.severity = .rootCause) ≤
      (Statistics.ofProgram twoUnitsSolved.program).roots := by
  have hsome : (((start {} twoUnits).respondAll [.build, .build, .call (.solve false)]).toOption.map (·.1)).isSome =
      true := by decide +kernel
  obtain ⟨replies, hreplies⟩ := Option.isSome_iff_exists.1 hsome
  have hrun : (start {} twoUnits).respondAll [.build, .build, .call (.solve false)] = .ok (replies, twoUnitsSolved) :=
    respondAll_eq_afterAll hreplies
  have hds : Diagnostics.populate (∅ : SortedMap String (List Diagnostic)) 3 twoUnitsSolved.program.wildReport =
      .ok (twoUnitsSolved.diagnostics, 2) := by decide +kernel
  obtain ⟨hfiles, htotal, hatoms, hplaces, hroots⟩ := statistics_agree hrun hds
  refine ⟨_, hrun, hds, ?_, ?_, htotal, hplaces 3 (by decide +kernel), hroots⟩
  · rw [hfiles "a.c"]
    decide +kernel
  · rw [hatoms]
    decide +kernel

end Session

end PointerKinds
