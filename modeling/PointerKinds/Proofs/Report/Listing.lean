/-
Diagnostics list every unchecked atom with a place once.

The groups are gone through twice, for their roots and then for the other atoms.  Either pass is in
the order of keys and takes an atom where its place is in a visited file; and together they have
every unchecked atom once.  Filing what is found by files keeps its order, and limiting the notes
changes neither the atom nor the severity.

The notes of a consequence are at the causes of its group, one for each whose own place is known:
the root before the others, which are in the order of keys.  Causes without a place take no room
among the notes, so the limit counts notes and not causes.

That the groups are those of a store, merged by any unions, matters in two places.  Every unchecked
atom has a root then, and two of them have the same root exactly if they are in one group.
-/
import PointerKinds.Proofs.Report.Counting
import PointerKinds.Proofs.RootCauses.Partition

namespace PointerKinds

/-! ### Causes of a group -/

namespace RootCauses

variable {c : RootCauses} {a b key root : AtomKey}

theorem Same.find_eq (h : c.Same a b) : c.find a = c.find b := by
  obtain ⟨l, ha, hb⟩ := h
  rw [find, find, ha, hb]

/-- The causes of an atom are the other atoms of its group that are blamed. -/
theorem mem_causes (hroot : c.find key = some root) {e : AtomKey × Explanation} :
    e ∈ c.causes key ↔ e.1 ≠ key ∧ c.Same key e.1 ∧ c.direct.get? e.1 = some e.2 := by
  obtain ⟨l, hl, -⟩ := Option.bind_eq_some_iff.1 hroot
  have hothers : e ∈ (c.direct.filter fun k _ => k != key && c.label.get? k == some l).entries ↔
      e.1 ≠ key ∧ c.Same key e.1 ∧ c.direct.get? e.1 = some e.2 := by
    rw [SortedMap.mem_entries_iff _ e.1 e.2, SortedMap.get?_filter, Option.filter_eq_some_iff, Bool.and_eq_true,
      bne_iff_ne, beq_iff_eq, same_iff hl]
    exact ⟨fun h => ⟨h.2.1, h.2.2, h.1⟩, fun h => ⟨h.2.2, h.1, h.2.1⟩⟩
  unfold causes
  rw [hroot, hl]
  simp only [List.mem_append, List.mem_filter, hothers]
  by_cases he : e.1 = root <;> simp [he]

/-- Listing one key before the others keeps those in order. -/
theorem pairwise_keyFirst (m : SortedMap AtomKey Explanation) (root : AtomKey) :
    (m.entries.filter (·.1 == root) ++ m.entries.filter (·.1 != root)).Pairwise fun d e =>
      (e.1 == root) = false ∧ ((d.1 == root) = true ∨ d.1 < e.1) := by
  have hsorted : m.entries.Pairwise fun d e => d.1 < e.1 := m.sorted.imp Nat.compare_eq_lt.1
  have hother : ∀ e ∈ m.entries.filter (·.1 != root), (e.1 == root) = false := fun e he =>
    beq_eq_false_iff_ne.2 (bne_iff_ne.1 (List.mem_filter.1 he).2)
  refine List.pairwise_append.2 ⟨?_, ?_, fun d hd e he => ⟨hother e he, .inl (List.mem_filter.1 hd).2⟩⟩
  · -- A key has one entry, so there are no two to be compared.
    refine (hsorted.filter _).imp_of_mem fun {d e} hd he hlt => absurd hlt ?_
    rw [eq_of_beq (List.mem_filter.1 hd).2, eq_of_beq (List.mem_filter.1 he).2]
    exact Nat.lt_irrefl _
  · exact (hsorted.filter _).imp_of_mem fun {d e} _ he hlt => ⟨hother e he, .inr hlt⟩

/-- The root comes first among the causes, and the others are in the order of keys. -/
theorem pairwise_causes (c : RootCauses) (key : AtomKey) :
    (c.causes key).Pairwise fun d e => c.isRoot e.1 = false ∧ (c.isRoot d.1 = true ∨ d.1 < e.1) := by
  cases hroot : c.find key with
  | none =>
      unfold causes
      rw [hroot]
      exact .nil
  | some root =>
      obtain ⟨l, hl, -⟩ := Option.bind_eq_some_iff.1 hroot
      have hisRoot : ∀ e ∈ c.causes key, c.isRoot e.1 = (e.1 == root) := fun e he => by
        rw [isRoot, ← ((mem_causes hroot).1 he).2.1.find_eq, hroot, Option.some_beq_some, Bool.beq_comm]
      have hsplit : (c.causes key).Pairwise fun d e =>
          (e.1 == root) = false ∧ ((d.1 == root) = true ∨ d.1 < e.1) := by
        unfold causes
        rw [hroot, hl]
        exact pairwise_keyFirst _ root
      refine hsplit.imp_of_mem fun hd he h => ?_
      rwa [hisRoot _ hd, hisRoot _ he]

end RootCauses

/-! ### Notes -/

namespace Diagnostic

variable {d : Diagnostic} {limit : Nat}

theorem length_markLast (ns : List Note) : (markLast ns).length = ns.length := by
  induction ns using markLast.induct with
  | case1 => rfl
  | case2 n => rfl
  | case3 n ns _ ih => simpa [markLast] using ih

/-- The last note has the mark, and the others are as they were. -/
theorem getElem?_markLast (ns : List Note) (i : Nat) :
    (markLast ns)[i]? = ns[i]?.map fun n =>
      { n with message := n.message ++ if i + 1 = ns.length then " (others)" else "" } := by
  induction ns using markLast.induct generalizing i with
  | case1 => rfl
  | case2 n => cases i <;> simp [markLast]
  | case3 n ns hns ih =>
      cases i with
      | zero => simp [markLast, show ns ≠ [] from hns]
      | succ i => simp [markLast, ih]

theorem key_limitNotes (d : Diagnostic) (limit : Nat) : (d.limitNotes limit).key = d.key := by
  obtain ⟨notes, h⟩ := d.exists_limitNotes_eq limit
  rw [h]

theorem range_limitNotes (d : Diagnostic) (limit : Nat) : (d.limitNotes limit).range = d.range := by
  obtain ⟨notes, h⟩ := d.exists_limitNotes_eq limit
  rw [h]

theorem length_limitNotes (hd : d.severity = .consequence) :
    (d.limitNotes limit).notes.length = min limit d.notes.length := by
  unfold limitNotes
  rw [hd]
  dsimp only
  split
  · next h => rw [length_markLast, List.length_take]
  · next h => exact (Nat.min_eq_right (Nat.le_of_not_lt h)).symm

/-- The notes that are kept are the first ones, and the last of them is marked if others are not. -/
theorem getElem?_limitNotes (hd : d.severity = .consequence) {i : Nat} (hi : i < limit) :
    (d.limitNotes limit).notes[i]? = d.notes[i]?.map fun n =>
      { n with message := n.message ++ if i + 1 = limit ∧ limit < d.notes.length then " (others)" else "" } := by
  unfold limitNotes
  rw [hd]
  dsimp only
  split
  · next h =>
      rw [getElem?_markLast, List.getElem?_take_of_lt hi, List.length_take, Nat.min_eq_left (Nat.le_of_lt h)]
      simp only [h, and_true]
  · next h => simp [h]

/-- One diagnostic is listed before another: root causes before consequences, and either by key. -/
def Precedes (d e : Diagnostic) : Prop :=
  d.severity = .rootCause ∧ e.severity = .consequence ∨ d.severity = e.severity ∧ d.key < e.key

end Diagnostic

/-! ### What is found -/

/-- A cause of a group whose place is known. -/
structure Cause where
  key : AtomKey
  why : Explanation
  location : Location

/-- The note at a cause. -/
def Cause.note (c : Cause) : Note := ⟨c.location.file, .ofLocation c.location, c.why.reason⟩

/-- A diagnostic has notes at the first of some causes, up to a limit, and the last note is marked if
there are more causes. -/
structure Diagnostic.NotesFirst (d : Diagnostic) (limit : Nat) (causes : List Cause) : Prop where
  length : d.notes.length = min limit causes.length
  note : ∀ i (c : Cause) (n : Note), causes[i]? = some c → d.notes[i]? = some n →
    n = { c.note with
      message := c.why.reason ++ if i + 1 = limit ∧ limit < causes.length then " (others)" else "" }

namespace WildReport

variable {w : WildReport} {key : AtomKey} {d : String × Diagnostic}

/-- All stretches that a diagnostic can be about are in the space of positions: those of the places
of atoms, and those of the places where atoms were made unchecked. -/
structure Fits (w : WildReport) : Prop where
  declared : ∀ l ∈ w.atomLocations.values, (SourceRange.ofLocation l).fits = true
  forced : ∀ why ∈ w.rootCauses.direct.values, ∀ l ∈ why.location, l.isValid = true →
    (SourceRange.ofLocation l).fits = true

/-- A list has the located causes of an atom's group: the other atoms with the same root that are
blamed and have a place, the root before the others and those in the order of keys.  So none is
listed twice. -/
structure ListsCauses (w : WildReport) (key : AtomKey) (causes : List Cause) : Prop where
  mem : ∀ c, c ∈ causes ↔ c.key ≠ key ∧ w.rootCauses.find c.key = w.rootCauses.find key ∧
    w.rootCauses.direct.get? c.key = some c.why ∧ w.atomLocations.get? c.key = some c.location
  ordered : causes.Pairwise fun c d =>
    w.rootCauses.isRoot d.key = false ∧ (w.rootCauses.isRoot c.key = true ∨ c.key < d.key)

/-- The causes of an atom's group whose places are known. -/
def locatedCauses (w : WildReport) (key : AtomKey) : List Cause :=
  (w.rootCauses.causes key).filterMap fun e => (w.atomLocations.get? e.1).map fun l => ⟨e.1, e.2, l⟩

theorem causeNotes_eq (w : WildReport) (key : AtomKey) : w.causeNotes key = (w.locatedCauses key).map Cause.note := by
  unfold causeNotes locatedCauses
  rw [List.map_filterMap]
  simp only [Option.map_map]
  rfl

theorem mem_locatedCauses {c : Cause} : c ∈ w.locatedCauses key ↔
    (c.key, c.why) ∈ w.rootCauses.causes key ∧ w.atomLocations.get? c.key = some c.location := by
  unfold locatedCauses
  rw [List.mem_filterMap]
  constructor
  · rintro ⟨e, he, hc⟩
    obtain ⟨l, hl, rfl⟩ := Option.map_eq_some_iff.1 hc
    exact ⟨he, hl⟩
  · exact fun h => ⟨(c.key, c.why), h.1, Option.map_eq_some_iff.2 ⟨c.location, h.2, rfl⟩⟩

/-- What is found is of a root or of another unchecked atom. -/
theorem mem_diagnostics : d ∈ w.diagnostics ↔
    (∃ key why l, (key, why) ∈ w.rootCauses.roots ∧ w.locationIn? key = some l ∧ rootDiagnostic key why l = d) ∨
    ∃ key l, key ∈ w.rootCauses.nonRoots ∧ w.locationIn? key = some l ∧ w.consequenceDiagnostic key l = d := by
  simp only [diagnostics, List.mem_append, List.mem_filterMap, Option.map_eq_some_iff, Prod.exists, exists_and_left]

/-- **Where all stretches fit, every diagnostic does.** -/
theorem Fits.fits_diagnostics (h : w.Fits) (hd : d ∈ w.diagnostics) : d.2.fits = true := by
  have hplace : ∀ {key l}, w.atomLocations.get? key = some l → (SourceRange.ofLocation l).fits = true := fun hl =>
    h.declared _ (SortedMap.mem_values_iff.2 ⟨_, hl⟩)
  rcases mem_diagnostics.1 hd with ⟨key, why, l, hroot, hl, rfl⟩ | ⟨key, l, -, hl, rfl⟩
  · refine Bool.and_eq_true_iff.2 ⟨hplace (Option.filter_eq_some_iff.1 hl).1, List.all_eq_true.2 fun n hn => ?_⟩
    obtain ⟨m, hm, rfl⟩ := List.mem_map.1 hn
    obtain ⟨hm, hvalid⟩ := Option.mem_filter_iff.1 (Option.mem_toList.1 hm)
    exact h.forced why (SortedMap.mem_values_iff.2 ⟨key, (RootCauses.mem_roots.1 hroot).1⟩) m hm hvalid
  · refine Bool.and_eq_true_iff.2 ⟨hplace (Option.filter_eq_some_iff.1 hl).1, List.all_eq_true.2 fun n hn => ?_⟩
    rw [consequenceDiagnostic, causeNotes_eq] at hn
    obtain ⟨c, hc, rfl⟩ := List.mem_map.1 hn
    exact hplace (mem_locatedCauses.1 hc).2

/-- Every diagnostic is of an unchecked atom and about its place. -/
theorem located_of_mem (hd : d ∈ w.diagnostics) : w.rootCauses.contains d.2.key = true ∧
    ∃ l, w.locationIn? d.2.key = some l ∧ l.file = d.1 ∧ d.2.range = .ofLocation l := by
  have hkey : d.2.key ∈ w.rootCauses.roots.map (·.1) ++ w.rootCauses.nonRoots ∧
      ∃ l, w.locationIn? d.2.key = some l ∧ l.file = d.1 ∧ d.2.range = .ofLocation l := by
    rcases mem_diagnostics.1 hd with ⟨key, why, l, hroot, hl, rfl⟩ | ⟨key, l, hkey, hl, rfl⟩
    · exact ⟨List.mem_append_left _ (List.mem_map_of_mem hroot), l, hl, rfl, rfl⟩
    · exact ⟨List.mem_append_right _ hkey, l, hl, rfl, rfl⟩
  exact ⟨(SortedMap.mem_keys_iff ..).1 ((w.rootCauses.perm_keys).mem_iff.1 hkey.1), hkey.2⟩

/-- Exactly the roots are found to be root causes. -/
theorem severity_eq_rootCause_iff (hd : d ∈ w.diagnostics) :
    d.2.severity = .rootCause ↔ w.rootCauses.isRoot d.2.key = true := by
  rcases mem_diagnostics.1 hd with ⟨key, why, l, hroot, hl, rfl⟩ | ⟨key, l, hkey, hl, rfl⟩
  · exact iff_of_true rfl (RootCauses.mem_roots.1 hroot).2
  · exact iff_of_false nofun (Bool.not_eq_true' _ ▸ (List.mem_filter.1 hkey).2 |> Bool.eq_false_iff.1)

/-- Limiting the notes of a consequence leaves them at the first of its located causes. -/
theorem notesFirst_limitNotes (hd : d ∈ w.diagnostics) (hseverity : d.2.severity = .consequence) (limit : Nat) :
    (d.2.limitNotes limit).NotesFirst limit (w.locatedCauses d.2.key) := by
  have hnotes : d.2.notes = (w.locatedCauses d.2.key).map Cause.note := by
    rw [← causeNotes_eq]
    rcases mem_diagnostics.1 hd with ⟨key, why, l, -, -, rfl⟩ | ⟨key, l, -, -, rfl⟩
    · exact nomatch hseverity
    · rfl
  have hlength : (d.2.limitNotes limit).notes.length = min limit (w.locatedCauses d.2.key).length := by
    rw [Diagnostic.length_limitNotes hseverity, hnotes, List.length_map]
  refine ⟨hlength, fun i c n hc hn => ?_⟩
  have hi : i < limit := by
    have hlt := (List.getElem?_eq_some_iff.1 hn).1
    rw [hlength] at hlt
    exact Nat.lt_of_lt_of_le hlt (Nat.min_le_left _ _)
  rw [Diagnostic.getElem?_limitNotes hseverity hi, hnotes, List.getElem?_map, hc, List.length_map] at hn
  exact (Option.some.inj hn).symm

/-- As many are found as there are unchecked atoms with a place in a visited file. -/
theorem length_diagnostics (w : WildReport) :
    w.diagnostics.length = w.rootCauses.keys.countP fun key => (w.locationIn? key).isSome := by
  have hfound := w.countP_found fun _ _ => true
  rw [List.countP_true] at hfound
  rw [hfound]
  exact List.countP_congr fun key _ => by cases w.locationIn? key <;> rfl

/-- What is found is in order: both passes go by keys, and the roots come first. -/
theorem pairwise_diagnostics (w : WildReport) : w.diagnostics.Pairwise fun d e => d.2.Precedes e.2 := by
  have hroots : w.rootCauses.roots.Pairwise fun d e => d.1 < e.1 :=
    (SortedMap.sorted _).imp Nat.compare_eq_lt.1
  have hothers : w.rootCauses.nonRoots.Pairwise (· < ·) :=
    w.rootCauses.label.pairwise_keys.filter _
  refine List.pairwise_append.2 ⟨List.pairwise_filterMap.2 ?_, List.pairwise_filterMap.2 ?_, fun d hd e he => ?_⟩
  · refine hroots.imp fun {d e} hlt _ hd _ he => ?_
    obtain ⟨-, -, rfl⟩ := Option.map_eq_some_iff.1 hd
    obtain ⟨-, -, rfl⟩ := Option.map_eq_some_iff.1 he
    exact .inr ⟨rfl, hlt⟩
  · refine hothers.imp fun {d e} hlt _ hd _ he => ?_
    obtain ⟨-, -, rfl⟩ := Option.map_eq_some_iff.1 hd
    obtain ⟨-, -, rfl⟩ := Option.map_eq_some_iff.1 he
    exact .inr ⟨rfl, hlt⟩
  · obtain ⟨root, -, hd⟩ := List.mem_filterMap.1 hd
    obtain ⟨-, -, rfl⟩ := Option.map_eq_some_iff.1 hd
    obtain ⟨key, -, he⟩ := List.mem_filterMap.1 he
    obtain ⟨-, -, rfl⟩ := Option.map_eq_some_iff.1 he
    exact .inl ⟨rfl, rfl⟩

/-- The located causes of an unchecked atom are listed, if groups have a member to blame. -/
theorem listsCauses {W : AtomKey → Prop} {R : AtomKey → AtomKey → Prop} (hparts : w.rootCauses.Partitions W R)
    (hblamed : w.rootCauses.Blamed) (hkey : W key) : w.ListsCauses key (w.locatedCauses key) where
  mem c := by
    obtain ⟨root, hroot⟩ := hparts.exists_find hblamed hkey
    rw [mem_locatedCauses, RootCauses.mem_causes hroot, ← hparts.find_eq_iff_same hblamed hkey, and_assoc, and_assoc,
      eq_comm (a := w.rootCauses.find key)]
  ordered := by
    refine List.pairwise_filterMap.2 ((w.rootCauses.pairwise_causes key).imp fun {d e} h _ hd _ he => ?_)
    obtain ⟨-, -, rfl⟩ := Option.map_eq_some_iff.1 hd
    obtain ⟨-, -, rfl⟩ := Option.map_eq_some_iff.1 he
    exact h

end WildReport

/-! ### What is listed -/

namespace Diagnostics

variable {ds : Diagnostics} {limit added : Nat} {w : WildReport} {file : String}

/-- The diagnostics of a report on the unchecked atoms of a store, and how many were added. -/
structure Lists (ds : Diagnostics) (added limit : Nat) (s : Store) (w : WildReport) : Prop where
  /-- An unchecked atom whose place is in a visited file has exactly one diagnostic, under that file. -/
  once : ∀ key l, s.value key = .wild → w.locationIn? key = some l →
    (ds.forFile l.file).countP (·.key = key) = 1
  /-- No other diagnostic is there: each is of an unchecked atom, under the file of its place and about it. -/
  located : ∀ file, ∀ d ∈ ds.forFile file, s.value d.key = .wild ∧
    ∃ l, w.locationIn? d.key = some l ∧ l.file = file ∧ d.range = .ofLocation l
  /-- As many are listed as were added, which is as many as were found and as there are such atoms. -/
  count : ds.count = added ∧ added = w.diagnostics.length ∧
    w.diagnostics.length = s.wildAtoms.countP fun key => (w.locationIn? key).isSome
  /-- Exactly the roots of groups are root causes. -/
  severity : ∀ file, ∀ d ∈ ds.forFile file, d.severity = .rootCause ↔ w.rootCauses.isRoot d.key = true
  /-- Root causes come before consequences, and each part is in the order of keys. -/
  ordered : ∀ file, (ds.forFile file).Pairwise Diagnostic.Precedes
  /-- A consequence has notes at the first of the located causes of its group, up to the limit. -/
  notes : ∀ file, ∀ d ∈ ds.forFile file, d.severity = .consequence →
    ∃ causes, w.ListsCauses d.key causes ∧ d.NotesFirst limit causes

/-- What is under a file was found for it. -/
theorem exists_found (h : populate (∅ : SortedMap String (List Diagnostic)) limit w = .ok (ds, added))
    {d : Diagnostic} (hd : d ∈ ds.forFile file) : ∃ e ∈ w.diagnostics, e.1 = file ∧ e.2.limitNotes limit = d := by
  rw [forFile_populate h] at hd
  obtain ⟨e, he, hed⟩ := List.mem_map.1 hd
  exact ⟨e, (List.mem_filter.1 he).1, of_decide_eq_true (List.mem_filter.1 he).2, hed⟩

/-- An unchecked atom is found exactly once. -/
theorem countP_populate (h : populate (∅ : SortedMap String (List Diagnostic)) limit w = .ok (ds, added))
    {key : AtomKey} {l : Location} (hkey : w.rootCauses.contains key = true) (hl : w.locationIn? key = some l) :
    (ds.forFile l.file).countP (·.key = key) = 1 := by
  have hone : w.rootCauses.keys.count key = 1 :=
    List.count_eq_one_of_mem w.rootCauses.label.nodup_keys ((SortedMap.mem_keys_iff ..).2 hkey)
  rw [forFile_populate h, List.countP_map, List.countP_filter, ← hone, List.count]
  refine Eq.trans (List.countP_congr fun d _ => ?_)
    ((w.countP_found fun f k => k = key && f = l.file).trans (List.countP_congr fun k _ => ?_))
  · simp only [Function.comp, Diagnostic.key_limitNotes]
  · by_cases hk : k = key
    · simp [hk, hl]
    · simp [hk]

/-- Filing and limiting keep the order in which diagnostics were found. -/
theorem pairwise_populate (h : populate (∅ : SortedMap String (List Diagnostic)) limit w = .ok (ds, added))
    (file : String) : (ds.forFile file).Pairwise Diagnostic.Precedes := by
  rw [forFile_populate h, List.pairwise_map]
  refine (w.pairwise_diagnostics.filter _).imp fun {d e} hprecedes => ?_
  unfold Diagnostic.Precedes
  rwa [Diagnostic.severity_limitNotes, Diagnostic.severity_limitNotes, Diagnostic.key_limitNotes,
    Diagnostic.key_limitNotes]

/-- **Diagnostics list every unchecked atom with a place once.**  Whatever unions follow after the
groups of a store are built, and wherever the atoms are declared, as long as stretches fit into the
space of positions: diagnostics are made, and they list each unchecked atom whose place is in a
visited file, under that file, and nothing else, in order and with notes up to the limit; and the
count that comes with them is their number. -/
theorem lists_populate (s : Store) (pairs : List (AtomKey × AtomKey)) (w : WildReport) (limit : Nat)
    (hcauses : w.rootCauses = (RootCauses.ofStore s).unionAll pairs) (hfits : w.Fits) :
    ∃ ds added, populate (∅ : SortedMap String (List Diagnostic)) limit w = .ok (ds, added) ∧
      ds.Lists added limit s w := by
  obtain ⟨hparts, hblamed, -⟩ :=
    RootCauses.partitions_unionAll pairs (RootCauses.partitions_ofStore s) (RootCauses.blamed_ofStore s)
  rw [← hcauses] at hparts hblamed
  have hwild : ∀ key, w.rootCauses.contains key = true ↔ s.value key = .wild := fun key =>
    (hparts.covers key).trans Store.mem_wildAtoms
  obtain ⟨⟨ds, added⟩, hds⟩ : ∃ result, populate (∅ : SortedMap String (List Diagnostic)) limit w = .ok result := by
    unfold populate
    rw [if_pos (List.all_eq_true.2 fun d hd => hfits.fits_diagnostics hd)]
    exact ⟨_, rfl⟩
  refine ⟨ds, added, hds, ?_⟩
  constructor
  case once => exact fun key l hkey hl => countP_populate hds ((hwild key).2 hkey) hl
  case located =>
    intro file d hd
    obtain ⟨e, he, rfl, rfl⟩ := exists_found hds hd
    rw [Diagnostic.key_limitNotes, Diagnostic.range_limitNotes, ← hwild]
    exact WildReport.located_of_mem he
  case count =>
    refine ⟨(count_populate hds).trans (Nat.zero_add added), (eq_of_populate hds).2, ?_⟩
    have hkeys : w.rootCauses.keys.Perm s.wildAtoms :=
      (List.perm_ext_iff_of_nodup w.rootCauses.label.nodup_keys (s.env.nodup_keys.filter _)).2 fun key =>
        (SortedMap.mem_keys_iff ..).trans (hparts.covers key)
    rw [w.length_diagnostics, hkeys.countP_eq]
  case severity =>
    intro file d hd
    obtain ⟨e, he, rfl, rfl⟩ := exists_found hds hd
    rw [Diagnostic.severity_limitNotes, Diagnostic.key_limitNotes]
    exact WildReport.severity_eq_rootCause_iff he
  case ordered => exact pairwise_populate hds
  case notes =>
    intro file d hd hseverity
    obtain ⟨e, he, rfl, rfl⟩ := exists_found hds hd
    rw [Diagnostic.severity_limitNotes] at hseverity
    have hkey : e.2.key ∈ s.wildAtoms := (hparts.covers _).1 (WildReport.located_of_mem he).1
    rw [Diagnostic.key_limitNotes]
    exact ⟨_, WildReport.listsCauses hparts hblamed hkey, WildReport.notesFirst_limitNotes he hseverity limit⟩

/-- Three atoms are unchecked outright, and a fourth because it equals the first. -/
def threeForced : Store :=
  let joined := (Store.addEq {} (.atom 0) (.atom 3)).2
  let forced := (joined.addWild 0 { reason := "first" }).2
  ((forced.addWild 1 { reason := "second" }).2.addWild 2 { reason := "third" }).2.reset.solve.2

/-- All four atoms in one group, with their places.  The second is declared in a header, which is
not a visited file. -/
def threeForcedReport : WildReport where
  rootCauses := (RootCauses.ofStore threeForced).unionAll [(0, 1), (0, 2)]
  atomLocations := .ofList [(0, ⟨"main.c", 1, 1, none⟩), (1, ⟨"main.h", 2, 1, none⟩), (2, ⟨"main.c", 3, 1, none⟩),
    (3, ⟨"main.c", 4, 1, none⟩)]
  files := .ofList ["main.c"]

/-- With two notes at most, the third atom has both of its causes noted, the header's among them, and
the fourth has one cause more than that. -/
theorem threeForcedReport_listed :
    threeForcedReport.rootCauses = (RootCauses.ofStore threeForced).unionAll [(0, 1), (0, 2)] ∧ threeForcedReport.Fits ∧
    ∃ ds, populate (∅ : SortedMap String (List Diagnostic)) 2 threeForcedReport = .ok (ds, 3) ∧
      ds.Lists 3 2 threeForced threeForcedReport ∧ ds.count = 3 ∧ ds.forFile "main.h" = [] ∧
      (ds.forFile "main.c").map (fun d => (d.key, d.severity, d.notes.map (·.message))) =
        [(0, .rootCause, []), (2, .consequence, ["first", "second"]),
          (3, .consequence, ["first", "second (others)"])] := by
  have hfits : threeForcedReport.Fits := ⟨by decide +kernel, by decide +kernel⟩
  obtain ⟨ds, added, hds, hlists⟩ := lists_populate threeForced [(0, 1), (0, 2)] threeForcedReport 2 rfl hfits
  obtain rfl : added = 3 := hlists.count.2.1.trans (by decide +kernel)
  refine ⟨rfl, hfits, ds, hds, hlists, hlists.count.1, ?_, ?_⟩
  · rw [forFile_populate hds]
    decide +kernel
  · rw [forFile_populate hds]
    decide +kernel

end Diagnostics

end PointerKinds
