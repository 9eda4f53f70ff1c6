/-
Look-ups in the sorted tables, one equation for each operation.

The tables themselves prove what an operation does at its own key and what it does at
another.  Proofs about the store mostly do not know which of the two they face, so here
the two are put together under a test of the keys.
-/
import PointerKinds.SortedMap
import PointerKinds.SortedSet

namespace PointerKinds

namespace SortedMap

variable {κ α : Type} [Ord κ] [Std.LawfulEqOrd κ]

theorem mem_keys_iff (m : SortedMap κ α) (k : κ) : k ∈ m.keys ↔ m.contains k = true := by
  unfold keys contains
  rw [List.mem_map, Option.isSome_iff_exists]
  constructor
  · rintro ⟨e, he, rfl⟩
    exact ⟨e.2, (mem_entries_iff m e.1 e.2).1 he⟩
  · rintro ⟨v, hv⟩
    exact ⟨(k, v), (mem_entries_iff m k v).2 hv, rfl⟩

theorem mem_values_iff {m : SortedMap κ α} {v : α} : v ∈ m.values ↔ ∃ k, m.get? k = some v := by
  constructor
  · intro hv
    obtain ⟨⟨k, w⟩, he, rfl⟩ := List.mem_map.1 hv
    exact ⟨k, (mem_entries_iff m k w).1 he⟩
  · rintro ⟨k, hv⟩
    exact List.mem_map.2 ⟨(k, v), (mem_entries_iff m k v).2 hv, rfl⟩

omit [Std.LawfulEqOrd κ] in
theorem size_eq (m : SortedMap κ α) : m.size = m.keys.length := (List.length_map _).symm

theorem entries_eq_map (m : SortedMap κ α) (fallback : α) :
    m.entries = m.keys.map fun k => (k, m.getD k fallback) := by
  unfold keys
  rw [List.map_map]
  refine (List.map_id _).symm.trans (List.map_congr_left fun e he => ?_)
  have hget : m.get? e.1 = some e.2 := (mem_entries_iff m e.1 e.2).1 he
  simp only [id_eq, Function.comp_apply, getD, hget, Option.getD_some]

omit [Std.LawfulEqOrd κ] in
theorem pairwise_keys (m : SortedMap Nat α) : m.keys.Pairwise (· < ·) :=
  List.pairwise_map.2 (m.sorted.imp Nat.compare_eq_lt.1)

theorem nodup_keys (m : SortedMap κ α) : m.keys.Nodup :=
  List.pairwise_map.2 <| m.sorted.imp fun {a b} h e => by
    rw [e] at h
    exact absurd (h.symm.trans Std.ReflCmp.compare_self) (by decide)

variable [DecidableEq κ]

theorem get?_modify (m : SortedMap κ α) (k k' : κ) (f : α → α) :
    (m.modify k f).get? k' = if k' = k then (m.get? k').map f else m.get? k' := by
  by_cases h : k' = k
  · rw [if_pos h, h, get?_modify_self]
  · rw [if_neg h, get?_modify_of_ne m (fun e => h e.symm)]

theorem get?_erase (m : SortedMap κ α) (k k' : κ) :
    (m.erase k).get? k' = if k' = k then none else m.get? k' := by
  by_cases h : k' = k
  · rw [if_pos h, h, get?_erase_self]
  · rw [if_neg h, get?_erase_of_ne m (fun e => h e.symm)]

variable [Std.TransOrd κ]

theorem get?_insert (m : SortedMap κ α) (k k' : κ) (v : α) :
    (m.insert k v).get? k' = if k' = k then some v else m.get? k' := by
  by_cases h : k' = k
  · rw [if_pos h, h, get?_insert_self]
  · rw [if_neg h, get?_insert_of_ne m (fun e => h e.symm)]

theorem mem_values_insert {m : SortedMap κ α} {k : κ} {v w : α} (h : w ∈ (m.insert k v).values) :
    w = v ∨ w ∈ m.values := by
  obtain ⟨⟨k', w⟩, he, rfl⟩ := List.mem_map.1 h
  rw [mem_entries_iff, get?_insert] at he
  split at he
  · exact .inl (Option.some.inj he).symm
  · exact .inr (List.mem_map.2 ⟨(k', w), (mem_entries_iff m k' w).2 he, rfl⟩)

theorem contains_insert (m : SortedMap κ α) (k k' : κ) (v : α) :
    (m.insert k v).contains k' = true ↔ k' = k ∨ m.contains k' = true := by
  unfold contains
  rw [get?_insert]
  by_cases hk : k' = k <;> simp [hk]

theorem get?_insertNew (m : SortedMap κ α) (k k' : κ) (v : α) :
    (m.insertNew k v).get? k' = if k' = k ∧ m.get? k = none then some v else m.get? k' := by
  unfold insertNew contains
  cases h : m.get? k with
  | some w => simp
  | none => simp only [Option.isSome_none, Bool.false_eq_true, if_false, get?_insert, and_true]

theorem contains_insertNew (m : SortedMap κ α) (k k' : κ) (v : α) :
    (m.insertNew k v).contains k' = true ↔ k' = k ∨ m.contains k' = true := by
  unfold contains
  rw [get?_insertNew]
  by_cases hk : k' = k
  · subst hk
    cases h : m.get? k' <;> simp
  · simp [hk]

/-! ### Tables made of lists -/

omit [Std.LawfulEqOrd κ] [DecidableEq κ] [Std.TransOrd κ] in
theorem perm_place {k : κ} {v : α} {l : List (κ × α)} (h : find k l = none) : (place k v l).Perm ((k, v) :: l) := by
  induction l with
  | nil => exact .refl _
  | cons e rest ih =>
      unfold find at h
      unfold place
      split at h
      · cases h
      · split
        · exact .refl _
        · contradiction
        · exact ((ih h).cons e).trans (.swap (k, v) e rest)

theorem perm_foldl_insert {l : List (κ × α)} {m : SortedMap κ α} (hl : (l.map Prod.fst).Nodup)
    (hm : ∀ e ∈ l, m.get? e.1 = none) : (l.foldl (fun m e => m.insert e.1 e.2) m).entries.Perm (l ++ m.entries) := by
  induction l generalizing m with
  | nil => exact .refl _
  | cons e rest ih =>
      obtain ⟨hfresh, hrest⟩ := List.nodup_cons.1 hl
      have hother : ∀ d ∈ rest, (m.insert e.1 e.2).get? d.1 = none := by
        intro d hd
        have hne : d.1 ≠ e.1 := fun he => hfresh (he ▸ List.mem_map_of_mem hd)
        rw [get?_insert, if_neg hne]
        exact hm d (List.mem_cons_of_mem e hd)
      have hplace : (m.insert e.1 e.2).entries.Perm (e :: m.entries) := perm_place (hm e List.mem_cons_self)
      exact ((ih hrest hother).trans (hplace.append_left rest)).trans List.perm_middle

/-- A table made of entries with different keys has these entries and no others. -/
theorem perm_ofList {l : List (κ × α)} (h : (l.map Prod.fst).Nodup) : (ofList l).entries.Perm l := by
  have hperm := perm_foldl_insert h (m := empty) fun _ _ => rfl
  rwa [show (empty : SortedMap κ α).entries = [] from rfl, List.append_nil] at hperm

omit [DecidableEq κ] in
/-- Sorting the entries of a table by their keys, in whatever order they come, gives the table's own list. -/
theorem mergeSort_eq_entries {l : List (κ × α)} {m : SortedMap κ α} (h : l.Perm m.entries) :
    l.mergeSort (fun a b => (compare a.1 b.1).isLE) = m.entries := by
  have hsorted : (l.mergeSort fun a b => (compare a.1 b.1).isLE).Pairwise
      fun a b => (compare a.1 b.1).isLE = true := by
    refine List.pairwise_mergeSort ?_ ?_ _
    · intro a b c hab hbc
      exact Std.TransCmp.isLE_trans hab hbc
    · intro a b
      have hswap : compare b.1 a.1 = (compare a.1 b.1).swap := Std.OrientedCmp.eq_swap
      rw [hswap]
      cases compare a.1 b.1 <;> rfl
  have hascending : m.entries.Pairwise fun a b => (compare a.1 b.1).isLE = true :=
    m.sorted.imp fun {a b} hab => by rw [hab]; rfl
  refine ((List.mergeSort_perm l _).trans h).eq_of_pairwise ?_ hsorted hascending
  intro a b ha hb hab hba
  obtain ⟨k, v⟩ := a
  obtain ⟨k', w⟩ := b
  -- Entries that stand in either order have one key, and a table has one value for it.
  obtain rfl : k = k' := Std.LawfulEqCmp.eq_of_compare (Std.OrientedCmp.isLE_antisymm hab hba)
  rw [(List.mergeSort_perm l _).mem_iff, h.mem_iff, mem_entries_iff] at ha
  rw [mem_entries_iff, ha] at hb
  rw [Option.some.inj hb]

end SortedMap

namespace SortedSet

variable {κ : Type} [Ord κ] [Std.LawfulEqOrd κ]

omit [Ord κ] [Std.LawfulEqOrd κ] in
theorem pairwise_toList (s : SortedSet Nat) : s.toList.Pairwise (· < ·) := s.sorted.imp Nat.compare_eq_lt.1

theorem nodup_toList (s : SortedSet κ) : s.toList.Nodup :=
  s.sorted.imp fun {a b} h e => by
    subst e
    exact absurd (h.symm.trans Std.ReflCmp.compare_self) (by decide)

theorem contains_eq_false_iff {s : SortedSet κ} {k : κ} : s.contains k = false ↔ k ∉ s := by
  rw [← Bool.not_eq_true, contains_iff]

theorem erase_of_not_mem {s : SortedSet κ} {k : κ} (h : k ∉ s) : s.erase k = s := by
  have hkept : ∀ e ∈ s.toList, (compare k e != .eq) = true := fun e he =>
    bne_iff_ne.2 fun hc => h (mem_def.2 (Std.LawfulEqCmp.eq_of_compare hc ▸ he))
  obtain ⟨l, hl⟩ := s
  unfold erase filter
  simp only [List.filter_eq_self.2 hkept]

variable [Std.TransOrd κ]

theorem erase_insert {s : SortedSet κ} {k : κ} (h : k ∉ s) : (s.insert k).erase k = s :=
  ext_mem fun i => by
    rw [mem_erase, mem_insert, or_and_right, and_not_self_iff, false_or]
    exact and_iff_left_of_imp fun hi e => h (e ▸ hi)

theorem insert_erase {s : SortedSet κ} {k : κ} (h : k ∈ s) : (s.erase k).insert k = s :=
  ext_mem fun i => by
    rw [mem_insert, mem_erase]
    by_cases hi : i = k
    · simp [hi, h]
    · simp [hi]

theorem insert_comm (s : SortedSet κ) (k k' : κ) : (s.insert k).insert k' = (s.insert k').insert k :=
  ext_mem fun i => by simp only [mem_insert, or_left_comm]

theorem erase_insert_comm (s : SortedSet κ) {k k' : κ} (h : k' ≠ k) : (s.insert k).erase k' = (s.erase k').insert k :=
  ext_mem fun i => by
    rw [mem_erase, mem_insert, mem_insert, mem_erase, or_and_right]
    refine or_congr_left (and_iff_left_of_imp ?_)
    rintro rfl
    exact h.symm

end SortedSet

end PointerKinds
