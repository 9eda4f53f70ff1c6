/-
Counting diagnostics, and counting atoms.

Diagnostics are added to a table of files one by one, and so are atoms counted.  Of both, what a
file has in the end is what was found for it, and what all files have together is what was found
at all: adding to one file leaves the others alone, so the whole grows by as much as the file.

What is found for a file is counted on one side along the groups of unchecked atoms, the roots
and then the others, and on the other side along the places of atoms.  Roots and others together
are the unchecked atoms, each of them once.  So both counts are of the atoms that are unchecked
and have their place in the file.
-/
import Mathlib.Data.List.Nodup
import Mathlib.Data.List.Perm.Basic
import PointerKinds.Proofs.RootCauses.Classes
import PointerKinds.Report.Diagnostic
import PointerKinds.Report.Statistics

namespace PointerKinds

namespace SortedMap

variable {κ α : Type} [Ord κ] [Std.LawfulEqOrd κ]

/-! ### What a table has altogether -/

theorem nodup_entries (m : SortedMap κ α) : m.entries.Nodup := .of_map _ m.nodup_keys

/-- Entries and keys that pass corresponding tests are equally many. -/
theorem countP_entries_eq {m : SortedMap κ α} {keys : List κ} {p : κ × α → Bool} {q : κ → Bool} (hkeys : keys.Nodup)
    (h : ∀ k, (∃ v, m.get? k = some v ∧ p (k, v) = true) ↔ k ∈ keys ∧ q k = true) :
    m.entries.countP p = keys.countP q := by
  have hperm : ((m.entries.filter p).map (·.1)).Perm (keys.filter q) := by
    refine (List.perm_ext_iff_of_nodup (m.nodup_keys.sublist (List.filter_sublist.map _)) (hkeys.filter q)).2 fun k => ?_
    rw [List.mem_filter, ← h k, List.mem_map]
    constructor
    · rintro ⟨⟨k, v⟩, he, rfl⟩
      obtain ⟨hmem, hp⟩ := List.mem_filter.1 he
      exact ⟨v, (mem_entries_iff m k v).1 hmem, hp⟩
    · rintro ⟨v, hv, hp⟩
      exact ⟨(k, v), List.mem_filter.2 ⟨(mem_entries_iff m k v).2 hv, hp⟩, rfl⟩
  rw [List.countP_eq_length_filter, List.countP_eq_length_filter, ← hperm.length_eq, List.length_map]

variable [DecidableEq κ] [Std.TransOrd κ]

theorem perm_values_insert (m : SortedMap κ α) (k : κ) (v : α) :
    (m.insert k v).values.Perm (v :: (m.erase k).values) := by
  have hnew : (k, v) ∉ (m.erase k).entries := by
    rw [mem_entries_iff, get?_erase_self]
    exact fun he => nomatch he
  have hnodup : ((k, v) :: (m.erase k).entries).Nodup := List.nodup_cons.2 ⟨hnew, nodup_entries _⟩
  refine List.Perm.map _ ((List.perm_ext_iff_of_nodup (nodup_entries _) hnodup).2 ?_)
  rintro ⟨k', w⟩
  rw [List.mem_cons, mem_entries_iff, mem_entries_iff, get?_insert, get?_erase, Prod.mk.injEq]
  by_cases hk : k' = k
  · simp [hk, eq_comm]
  · simp [hk]

theorem insert_get?_self {m : SortedMap κ α} {k : κ} {v : α} (h : m.get? k = some v) : m.insert k v = m :=
  ext_get? fun k' => by
    rw [get?_insert]
    split
    · next hk => rw [hk, h]
    · rfl

theorem erase_of_get?_eq_none {m : SortedMap κ α} {k : κ} (h : m.get? k = none) : m.erase k = m :=
  ext_get? fun k' => by
    rw [get?_erase]
    split
    · next hk => rw [hk, h]
    · rfl

theorem perm_values_of_get? {m : SortedMap κ α} {k : κ} {v : α} (h : m.get? k = some v) :
    m.values.Perm (v :: (m.erase k).values) := by
  have hperm := perm_values_insert m k v
  rwa [insert_get?_self h] at hperm

end SortedMap

/-! ### Diagnostics of files -/

namespace Diagnostics

variable {ds : Diagnostics} {limit added : Nat} {w : WildReport}

theorem forFile_add (ds : Diagnostics) (d : String × Diagnostic) (file : String) :
    (ds.add d).forFile file = ds.forFile file ++ if d.1 = file then [d.2] else [] := by
  unfold add forFile SortedMap.getD
  rw [SortedMap.get?_insert]
  by_cases hfile : file = d.1
  · rw [if_pos hfile, if_pos hfile.symm, hfile, Option.getD_some]
  · rw [if_neg hfile, if_neg fun e => hfile e.symm, List.append_nil]

/-- A diagnostic that is added is one more in all files together. -/
theorem perm_flatten_add (ds : Diagnostics) (d : String × Diagnostic) :
    (SortedMap.values (ds.add d)).flatten.Perm (d.2 :: (SortedMap.values ds).flatten) := by
  have hrest : (SortedMap.values ds).flatten.Perm
      (ds.forFile d.1 ++ (SortedMap.values (SortedMap.erase ds d.1)).flatten) := by
    unfold forFile SortedMap.getD
    cases hget : SortedMap.get? ds d.1 with
    | none => rw [SortedMap.erase_of_get?_eq_none hget, Option.getD_none, List.nil_append]
    | some l => exact (SortedMap.perm_values_of_get? hget).flatten
  have hadd := (SortedMap.perm_values_insert ds d.1 (ds.forFile d.1 ++ [d.2])).flatten
  rw [List.flatten_cons, List.append_assoc, List.singleton_append] at hadd
  exact hadd.trans (List.perm_middle.trans (hrest.symm.cons d.2))

/-- The count does not depend on the table, and goes up by one for each diagnostic. -/
theorem foldl_enter (limit : Nat) (found : List (String × Diagnostic)) (ds : Diagnostics) (n : Nat) :
    found.foldl (enter limit) (ds, n) =
      (found.foldl (fun ds d => add ds (d.1, d.2.limitNotes limit)) ds, n + found.length) := by
  induction found generalizing ds n with
  | nil => rfl
  | cons d rest ih =>
      rw [List.foldl_cons, enter, ih, List.length_cons, Nat.add_comm rest.length, ← Nat.add_assoc]
      rfl

theorem eq_of_populate {ds' : Diagnostics} (h : populate ds limit w = .ok (ds', added)) :
    ds' = w.diagnostics.foldl (fun ds d => add ds (d.1, d.2.limitNotes limit)) ds ∧ added = w.diagnostics.length := by
  unfold populate at h
  simp only [foldl_enter, Nat.zero_add] at h
  split at h
  · obtain ⟨rfl, rfl⟩ := Prod.mk.inj (Except.ok.inj h)
    exact ⟨rfl, rfl⟩
  · exact nomatch h

/-- **What a file has is what was found for it**, in the order it was found. -/
theorem forFile_populate (h : populate (∅ : SortedMap String (List Diagnostic)) limit w = .ok (ds, added))
    (file : String) :
    ds.forFile file = (w.diagnostics.filter fun d => d.1 = file).map fun d => d.2.limitNotes limit := by
  have hfold : ∀ (found : List (String × Diagnostic)) (ds : Diagnostics),
      (found.foldl (fun ds d => add ds (d.1, d.2.limitNotes limit)) ds).forFile file =
        ds.forFile file ++ (found.filter fun d => d.1 = file).map fun d => d.2.limitNotes limit := by
    intro found
    induction found with
    | nil => exact fun ds => (List.append_nil _).symm
    | cons d rest ih =>
        intro ds
        rw [List.foldl_cons, ih, forFile_add, List.append_assoc]
        by_cases hd : d.1 = file <;> simp [hd]
  rw [(eq_of_populate h).1, hfold]
  rfl

/-- **What all files have together is what was found**, and what they had before. -/
theorem perm_populate {ds' : Diagnostics} (h : populate ds limit w = .ok (ds', added)) :
    (SortedMap.values ds').flatten.Perm
      ((w.diagnostics.map fun d => d.2.limitNotes limit) ++ (SortedMap.values ds).flatten) := by
  have hfold : ∀ (found : List (String × Diagnostic)) (ds : Diagnostics),
      (SortedMap.values (found.foldl (fun ds d => add ds (d.1, d.2.limitNotes limit)) ds)).flatten.Perm
        ((found.map fun d => d.2.limitNotes limit) ++ (SortedMap.values ds).flatten) := by
    intro found
    induction found with
    | nil => exact fun ds => .refl _
    | cons d rest ih =>
        intro ds
        exact (ih _).trans (((perm_flatten_add ds _).append_left _).trans List.perm_middle)
  rw [(eq_of_populate h).1]
  exact hfold _ _

theorem count_eq_length (ds : Diagnostics) : ds.count = (SortedMap.values ds).flatten.length := by
  have hfold : ∀ (l : List (List Diagnostic)) (n : Nat),
      l.foldl (fun n d => n + d.length) n = n + l.flatten.length := by
    intro l
    induction l with
    | nil => exact fun n => rfl
    | cons d rest ih =>
        intro n
        rw [List.foldl_cons, ih, List.flatten_cons, List.length_append, Nat.add_assoc]
  rw [count, hfold, Nat.zero_add]

/-- **The count that is returned is by how much the diagnostics grow.** -/
theorem count_populate {ds' : Diagnostics} (h : populate ds limit w = .ok (ds', added)) :
    ds'.count = ds.count + added := by
  rw [count_eq_length, count_eq_length, (perm_populate h).length_eq, List.length_append, List.length_map,
    (eq_of_populate h).2, Nat.add_comm]

end Diagnostics

/-- Limiting the notes changes nothing else. -/
theorem Diagnostic.exists_limitNotes_eq (d : Diagnostic) (limit : Nat) :
    ∃ notes, d.limitNotes limit = { d with notes } := by
  unfold limitNotes
  split
  · exact ⟨d.notes, rfl⟩
  · split
    · exact ⟨_, rfl⟩
    · exact ⟨d.notes, rfl⟩

theorem Diagnostic.severity_limitNotes (d : Diagnostic) (limit : Nat) :
    (d.limitNotes limit).severity = d.severity := by
  obtain ⟨notes, h⟩ := d.exists_limitNotes_eq limit
  rw [h]

/-! ### Roots and others -/

namespace RootCauses

variable {c : RootCauses} {key : AtomKey}

theorem mem_map_roots : key ∈ c.roots.map (·.1) ↔ c.isRoot key = true := by
  constructor
  · intro hkey
    obtain ⟨⟨root, why⟩, hroot, rfl⟩ := List.mem_map.1 hkey
    exact (mem_roots.1 hroot).2
  · intro hroot
    obtain ⟨l, -, hl⟩ := isRoot_iff.1 hroot
    obtain ⟨why, hwhy⟩ := Option.isSome_iff_exists.1 (rootOf?_spec hl).2
    exact List.mem_map.2 ⟨(key, why), mem_roots.2 ⟨hwhy, hroot⟩, rfl⟩

/-- **The roots and the others are the unchecked atoms**, each of them once. -/
theorem perm_keys (c : RootCauses) : (c.roots.map (·.1) ++ c.nonRoots).Perm c.keys := by
  have hroots : (c.roots.map (·.1)).Perm (c.keys.filter c.isRoot) := by
    have hnodup : (c.roots.map (·.1)).Nodup := SortedMap.nodup_keys _
    refine (List.perm_ext_iff_of_nodup hnodup (c.label.nodup_keys.filter _)).2 fun key => ?_
    rw [mem_map_roots, List.mem_filter]
    refine (and_iff_right_of_imp fun hroot => ?_).symm
    obtain ⟨l, hl, -⟩ := isRoot_iff.1 hroot
    exact (SortedMap.mem_keys_iff ..).2 (contains_iff.2 ⟨l, hl⟩)
  exact (hroots.append_right _).trans (List.filter_append_perm c.isRoot c.keys)

end RootCauses

namespace WildReport

variable {w : WildReport} {limit : Nat}

/-- Whether an atom is declared in a file, and that is a visited one. -/
def declaresIn (w : WildReport) (file : String) (key : AtomKey) : Bool := (w.locationIn? key).any (·.file = file)

theorem declaresIn_iff {file : String} {key : AtomKey} : w.declaresIn file key = true ↔
    ∃ l, w.atomLocations.get? key = some l ∧ w.files.contains l.file = true ∧ l.file = file := by
  unfold declaresIn locationIn?
  cases w.atomLocations.get? key with
  | none => simp
  | some l => simp [Option.filter_some, apply_ite]

/-- **One diagnostic is found for each unchecked atom declared in a visited file**, of that atom and
in that file. -/
theorem countP_found (w : WildReport) (p : String → AtomKey → Bool) :
    (w.diagnostics.countP fun d => p d.1 d.2.key) =
      w.rootCauses.keys.countP fun key => (w.locationIn? key).any fun l => p l.file key := by
  rw [← (w.rootCauses.perm_keys).countP_eq, List.countP_append, List.countP_map]
  unfold diagnostics
  rw [List.countP_append, List.countP_filterMap, List.countP_filterMap]
  congr 1
  · refine List.countP_congr fun e _ => ?_
    simp only [Function.comp]
    cases w.locationIn? e.1 <;> rfl
  · refine List.countP_congr fun key _ => ?_
    cases w.locationIn? key <;> rfl

/-- **A file has one diagnostic for each unchecked atom declared in it.** -/
theorem countP_diagnostics (w : WildReport) (file : String) :
    (w.diagnostics.countP fun d => d.1 = file) = w.rootCauses.keys.countP (w.declaresIn file) :=
  w.countP_found fun f _ => f = file

/-- Only roots are reported as root causes. -/
theorem countP_rootCause_le (w : WildReport) :
    (w.diagnostics.countP fun d => d.2.severity = .rootCause) ≤ w.rootCauses.roots.length := by
  have hothers : ((w.rootCauses.nonRoots.filterMap fun key =>
      (w.locationIn? key).map (w.consequenceDiagnostic key)).countP fun d => d.2.severity = .rootCause) = 0 := by
    refine List.countP_eq_zero.2 fun d hd => ?_
    obtain ⟨key, -, hkey⟩ := List.mem_filterMap.1 hd
    obtain ⟨l, -, rfl⟩ := Option.map_eq_some_iff.1 hkey
    simp [consequenceDiagnostic]
  unfold diagnostics
  rw [List.countP_append, hothers]
  exact Nat.le_trans List.countP_le_length (List.length_filterMap_le ..)

end WildReport

/-! ### Counts of files -/

namespace KindCounts

variable {c d e : KindCounts} {k : Kind}

theorem merge_comm (c d : KindCounts) : c.merge d = d.merge c := by
  simp only [merge, Nat.add_comm]

theorem merge_assoc (c d e : KindCounts) : (c.merge d).merge e = c.merge (d.merge e) := by
  simp only [merge, Nat.add_assoc]

theorem empty_merge (c : KindCounts) : merge {} c = c := by
  simp only [merge, Nat.zero_add]

theorem merge_add (c d : KindCounts) (k : Kind) : (c.add k).merge d = (c.merge d).add k := by
  cases k <;> simp only [add, merge, Nat.add_right_comm]

theorem total_add (c : KindCounts) (k : Kind) : (c.add k).total = c.total + 1 := by
  cases k <;> simp only [add, total] <;> omega

instance : RightCommutative merge where
  right_comm c d e := by rw [merge_assoc, merge_comm d e, merge_assoc]

theorem foldl_merge (c : KindCounts) (l : List KindCounts) : l.foldl merge c = c.merge (l.foldl merge {}) := by
  induction l generalizing c with
  | nil => rw [List.foldl_nil, List.foldl_nil, merge_comm, empty_merge]
  | cons d rest ih => rw [List.foldl_cons, List.foldl_cons, ih, ih (merge {} d), empty_merge, merge_assoc]

end KindCounts

namespace Statistics

variable {s : Statistics}

/-- The counts of all files together are those of one file and those of the others. -/
theorem foldl_merge_values (m : SortedMap String KindCounts) (file : String) :
    m.values.foldl .merge {} = (m.getD file {}).merge ((m.erase file).values.foldl .merge {}) := by
  unfold SortedMap.getD
  cases hget : m.get? file with
  | none => rw [SortedMap.erase_of_get?_eq_none hget, Option.getD_none, KindCounts.empty_merge]
  | some c =>
      rw [(SortedMap.perm_values_of_get? hget).foldl_eq, List.foldl_cons, KindCounts.foldl_merge, KindCounts.empty_merge,
        Option.getD_some]

/-- Counting an atom keeps the total the sum over the files. -/
theorem total_count (h : s.total = s.files.values.foldl .merge {}) (file : String) (k : Kind) :
    (s.count file k).total = (s.count file k).files.values.foldl .merge {} := by
  unfold count
  rw [(SortedMap.perm_values_insert ..).foldl_eq, List.foldl_cons, KindCounts.foldl_merge, KindCounts.empty_merge,
    KindCounts.merge_add, ← foldl_merge_values, h]

theorem wild_count (s : Statistics) (file file' : String) (k : Kind) :
    ((s.count file k).files.getD file' {}).wild =
      (s.files.getD file' {}).wild + if file = file' ∧ k = .wild then 1 else 0 := by
  unfold count SortedMap.getD
  rw [SortedMap.get?_insert]
  by_cases hfile : file' = file
  · subst hfile
    cases k <;> simp [KindCounts.add]
  · rw [if_neg hfile, if_neg fun h => hfile h.1.symm, Nat.add_zero]

variable (p : Program)

/-- Counts atoms under their places. -/
def countAll (s : Statistics) (located : List (AtomKey × Location)) : Statistics :=
  located.foldl (fun s e => s.count e.2.file (p.store.value e.1)) s

theorem ofProgram_eq : ofProgram p =
    countAll p { roots := p.rootCauses.roots.length }
      (p.atomLocations.entries.filter fun e => p.files.contains e.2.file) :=
  rfl

theorem roots_countAll (s : Statistics) (located : List (AtomKey × Location)) :
    (countAll p s located).roots = s.roots := by
  induction located generalizing s with
  | nil => rfl
  | cons e rest ih => exact ih _

theorem roots_ofProgram : (ofProgram p).roots = p.rootCauses.roots.length := roots_countAll p _ _

theorem total_countAll (h : s.total = s.files.values.foldl .merge {}) (located : List (AtomKey × Location)) :
    (countAll p s located).total = (countAll p s located).files.values.foldl .merge {} := by
  induction located generalizing s with
  | nil => exact h
  | cons e rest ih => exact ih (total_count h _ _)

/-- **The total is the sum over the files.** -/
theorem total_ofProgram : (ofProgram p).total = (ofProgram p).files.values.foldl .merge {} :=
  total_countAll p rfl _

/-- A file has no more than there are in total. -/
theorem total_le_of_mem {c : KindCounts} (hc : c ∈ (ofProgram p).files.values) :
    c.total ≤ (ofProgram p).total.total := by
  obtain ⟨file, hfile⟩ := SortedMap.mem_values_iff.1 hc
  rw [total_ofProgram, foldl_merge_values _ file, SortedMap.getD, hfile, Option.getD_some]
  simp only [KindCounts.total, KindCounts.merge]
  omega

theorem total_total_countAll (s : Statistics) (located : List (AtomKey × Location)) :
    (countAll p s located).total.total = s.total.total + located.length := by
  induction located generalizing s with
  | nil => rfl
  | cons e rest ih =>
      have hone : (s.count e.2.file (p.store.value e.1)).total.total = s.total.total + 1 := KindCounts.total_add ..
      have hrest := ih (s.count e.2.file (p.store.value e.1))
      rw [hone, Nat.add_assoc, Nat.add_comm 1] at hrest
      exact hrest

/-- **The total is of the atoms whose place is in a visited file.** -/
theorem total_total_ofProgram :
    (ofProgram p).total.total = p.atomLocations.entries.countP fun e => p.files.contains e.2.file := by
  rw [ofProgram_eq, total_total_countAll, List.countP_eq_length_filter]
  exact Nat.zero_add _

theorem wild_countAll (s : Statistics) (located : List (AtomKey × Location)) (file : String) :
    ((countAll p s located).files.getD file {}).wild = (s.files.getD file {}).wild +
      located.countP fun e => decide (e.2.file = file ∧ p.store.value e.1 = .wild) := by
  induction located generalizing s with
  | nil => rfl
  | cons e rest ih =>
      refine (ih _).trans ?_
      rw [wild_count, List.countP_cons, Nat.add_assoc, Nat.add_comm (ite _ _ _)]
      simp only [decide_eq_true_eq]

/-- **A visited file has the unchecked atoms whose place is in it.** -/
theorem wild_ofProgram (file : String) : ((ofProgram p).files.getD file {}).wild =
    p.atomLocations.entries.countP fun e =>
      decide (e.2.file = file ∧ p.store.value e.1 = .wild) && p.files.contains e.2.file := by
  rw [ofProgram_eq, wild_countAll, List.countP_filter]
  exact Nat.zero_add _

end Statistics

end PointerKinds
