/-
Finite maps as sorted lists of entries.

The tables of the analysis are printed in the order of their keys, compared for
equality by the theory, and evaluated by the kernel.  A list of entries whose keys
strictly increase serves all three: there is exactly one list for each finite map,
so two maps that answer every look-up alike are equal (`ext_get?`), and every
operation is a plain recursion on the list.

Look-ups take linear time, which the sizes at hand allow.
-/

namespace PointerKinds

/-- A finite map: entries with strictly increasing keys. -/
structure SortedMap (κ α : Type) [Ord κ] where
  /-- The entries, by key. -/
  entries : List (κ × α)
  /-- The keys strictly increase. -/
  sorted : entries.Pairwise fun a b => compare a.1 b.1 = .lt

namespace SortedMap

variable {κ α β : Type} [Ord κ]

/-! ### Operations on the entries -/

/-- The value of the first entry with key `k`. -/
def find (k : κ) : List (κ × α) → Option α
  | [] => none
  | e :: rest => if compare k e.1 = .eq then some e.2 else find k rest

/-- Puts an entry in its place; an entry with the same key gives way. -/
def place (k : κ) (v : α) : List (κ × α) → List (κ × α)
  | [] => [(k, v)]
  | e :: rest =>
    match compare k e.1 with
    | .lt => (k, v) :: e :: rest
    | .eq => (e.1, v) :: rest
    | .gt => e :: place k v rest

theorem lt_of_mem_place {a k : κ} {v : α} {l : List (κ × α)} (hk : compare a k = .lt)
    (hl : ∀ e ∈ l, compare a e.1 = .lt) : ∀ e ∈ place k v l, compare a e.1 = .lt := by
  induction l with
  | nil => simpa [place] using hk
  | cons d rest ih =>
    intro e he
    simp only [place] at he
    split at he
    · rcases List.mem_cons.1 he with rfl | he
      · exact hk
      · exact hl e he
    · rcases List.mem_cons.1 he with rfl | he
      · exact hl d (by simp)
      · exact hl e (by simp [he])
    · rcases List.mem_cons.1 he with rfl | he
      · exact hl e (by simp)
      · exact ih (fun e he => hl e (by simp [he])) e he

theorem pairwise_place [Std.TransOrd κ] (k : κ) (v : α) {l : List (κ × α)}
    (h : l.Pairwise fun a b => compare a.1 b.1 = .lt) :
    (place k v l).Pairwise fun a b => compare a.1 b.1 = .lt := by
  induction l with
  | nil => simp [place]
  | cons d rest ih =>
    obtain ⟨hd, hrest⟩ := List.pairwise_cons.1 h
    simp only [place]
    split
    · rename_i hlt
      refine List.pairwise_cons.2 ⟨fun e he => ?_, h⟩
      rcases List.mem_cons.1 he with rfl | he
      · exact hlt
      · exact Std.TransCmp.lt_trans hlt (hd e he)
    · exact List.pairwise_cons.2 ⟨hd, hrest⟩
    · rename_i hgt
      exact List.pairwise_cons.2
        ⟨lt_of_mem_place (Std.OrientedCmp.gt_iff_lt.1 hgt) hd, ih hrest⟩

/-! ### The map and its operations -/

/-- The map without entries. -/
def empty : SortedMap κ α := ⟨[], .nil⟩

instance : EmptyCollection (SortedMap κ α) := ⟨empty⟩
instance : Inhabited (SortedMap κ α) := ⟨empty⟩

instance [DecidableEq κ] [DecidableEq α] : DecidableEq (SortedMap κ α) := fun a b =>
  decidable_of_iff (a.entries = b.entries) <| by cases a; cases b; simp

/-- The value at a key. -/
def get? (m : SortedMap κ α) (k : κ) : Option α := find k m.entries

/-- The value at a key, or a fallback. -/
def getD (m : SortedMap κ α) (k : κ) (fallback : α) : α := (m.get? k).getD fallback

/-- Whether the key has an entry. -/
def contains (m : SortedMap κ α) (k : κ) : Bool := (m.get? k).isSome

/-- The keys, ascending. -/
def keys (m : SortedMap κ α) : List κ := m.entries.map (·.1)

/-- The values, by key. -/
def values (m : SortedMap κ α) : List α := m.entries.map (·.2)

/-- How many entries there are. -/
def size (m : SortedMap κ α) : Nat := m.entries.length

/-- Whether there is no entry. -/
def isEmpty (m : SortedMap κ α) : Bool := m.entries.isEmpty

/-- Sets the value at a key. -/
def insert [Std.TransOrd κ] (m : SortedMap κ α) (k : κ) (v : α) : SortedMap κ α :=
  ⟨place k v m.entries, pairwise_place k v m.sorted⟩

/-- Sets the value at a key that has none; an entry already there stays. -/
def insertNew [Std.TransOrd κ] (m : SortedMap κ α) (k : κ) (v : α) : SortedMap κ α :=
  if m.contains k then m else m.insert k v

/-- Keeps the entries that pass a test. -/
def filter (p : κ → α → Bool) (m : SortedMap κ α) : SortedMap κ α :=
  ⟨m.entries.filter fun e => p e.1 e.2, m.sorted.filter _⟩

/-- Removes the entry at a key. -/
def erase (m : SortedMap κ α) (k : κ) : SortedMap κ α :=
  m.filter fun k' _ => compare k k' != .eq

/-- Changes every value. -/
def mapValues (f : κ → α → β) (m : SortedMap κ α) : SortedMap κ β :=
  ⟨m.entries.map fun e => (e.1, f e.1 e.2), List.pairwise_map.2 m.sorted⟩

/-- Changes the value at a key, if there is one. -/
def modify (m : SortedMap κ α) (k : κ) (f : α → α) : SortedMap κ α :=
  m.mapValues fun k' v => if compare k k' = .eq then f v else v

/-- The map of a list of entries; later entries win. -/
def ofList [Std.TransOrd κ] (l : List (κ × α)) : SortedMap κ α :=
  l.foldl (fun m e => m.insert e.1 e.2) empty

/-! ### Look-ups after each operation -/

@[simp] theorem get?_empty (k : κ) : (empty : SortedMap κ α).get? k = none := rfl

section
variable [Std.LawfulEqOrd κ]

theorem find_map (f : κ → α → β) (k : κ) (l : List (κ × α)) :
    find k (l.map fun e => (e.1, f e.1 e.2)) = (find k l).map (f k) := by
  induction l with
  | nil => rfl
  | cons d rest ih =>
    by_cases h : compare k d.1 = .eq
    · simp [find, Std.LawfulEqCmp.eq_of_compare h, Std.ReflCmp.compare_self]
    · simp [find, h, ih]

@[simp] theorem get?_mapValues (f : κ → α → β) (m : SortedMap κ α) (k : κ) :
    (m.mapValues f).get? k = (m.get? k).map (f k) := find_map f k m.entries

theorem get?_modify_self (m : SortedMap κ α) (k : κ) (f : α → α) :
    (m.modify k f).get? k = (m.get? k).map f := by
  simp [modify, Std.ReflCmp.compare_self]

theorem get?_modify_of_ne (m : SortedMap κ α) {k k' : κ} (h : k ≠ k') (f : α → α) :
    (m.modify k f).get? k' = m.get? k' := by
  have : compare k k' ≠ .eq := fun e => h (Std.LawfulEqCmp.eq_of_compare e)
  simp [modify, this]

end

theorem find_place_self [Std.ReflOrd κ] (k : κ) (v : α) (l : List (κ × α)) : find k (place k v l) = some v := by
  induction l with
  | nil => simp [place, find, Std.ReflCmp.compare_self]
  | cons d rest ih =>
    simp only [place]
    split
    · simp [find, Std.ReflCmp.compare_self]
    · rename_i h; simp [find, h]
    · rename_i h; simp [find, h, ih]

@[simp] theorem get?_insert_self [Std.TransOrd κ] (m : SortedMap κ α) (k : κ) (v : α) :
    (m.insert k v).get? k = some v := find_place_self k v m.entries

section
variable [Std.LawfulEqOrd κ]

theorem find_place_of_ne {k k' : κ} (h : k ≠ k') (v : α) (l : List (κ × α)) :
    find k' (place k v l) = find k' l := by
  have h' : compare k' k ≠ .eq := fun e => h (Std.LawfulEqCmp.eq_of_compare e).symm
  induction l with
  | nil => simp [place, find, h']
  | cons d rest ih =>
    simp only [place]
    split
    · simp [find, h']
    · rename_i e; simp [find, ← Std.LawfulEqCmp.eq_of_compare e, h']
    · simp [find, ih]

theorem get?_insert_of_ne [Std.TransOrd κ] (m : SortedMap κ α) {k k' : κ} (h : k ≠ k') (v : α) :
    (m.insert k v).get? k' = m.get? k' := find_place_of_ne h v m.entries

/-- An entry is in the list exactly if looking its key up gives its value. -/
theorem mem_entries_iff (m : SortedMap κ α) (k : κ) (v : α) :
    (k, v) ∈ m.entries ↔ m.get? k = some v := by
  obtain ⟨l, hl⟩ := m
  simp only [get?]
  induction l with
  | nil => simp [find]
  | cons d rest ih =>
    obtain ⟨hd, hrest⟩ := List.pairwise_cons.1 hl
    by_cases h : compare k d.1 = .eq
    · have hk := Std.LawfulEqCmp.eq_of_compare h
      subst hk
      have hno : (d.1, v) ∉ rest := fun hm => by simpa [Std.ReflCmp.compare_self] using hd _ hm
      obtain ⟨dk, dv⟩ := d
      simp only at hno
      simp [find, Std.ReflCmp.compare_self, hno, eq_comm]
    · have hne : k ≠ d.1 := fun e => h (e ▸ Std.ReflCmp.compare_self)
      have : (k, v) ≠ d := fun e => hne (by rw [← e])
      simp [find, h, this, ih hrest]

/-- Two maps that answer every look-up alike are the same map. -/
theorem ext_get? [Std.TransOrd κ] {a b : SortedMap κ α} (h : ∀ k, a.get? k = b.get? k) : a = b := by
  obtain ⟨l, hl⟩ := a
  obtain ⟨r, hr⟩ := b
  have hmem : ∀ e, e ∈ l ↔ e ∈ r := by
    rintro ⟨k, v⟩
    rw [mem_entries_iff ⟨l, hl⟩, mem_entries_iff ⟨r, hr⟩, h]
  have : l = r := by
    clear h
    induction l generalizing r with
    | nil =>
      cases r with
      | nil => rfl
      | cons e r => simpa using (hmem e).2 (by simp)
    | cons d l ih =>
      cases r with
      | nil => simpa using (hmem d).1 (by simp)
      | cons e r =>
        obtain ⟨hd, hl'⟩ := List.pairwise_cons.1 hl
        obtain ⟨he, hr'⟩ := List.pairwise_cons.1 hr
        have hde : d = e := by
          rcases List.mem_cons.1 ((hmem d).1 (by simp)) with hde | hdr
          · exact hde
          · rcases List.mem_cons.1 ((hmem e).2 (by simp)) with hed | hel
            · exact hed.symm
            · have h1 := he d hdr
              have h2 := hd e hel
              simpa [Std.ReflCmp.compare_self] using Std.TransCmp.lt_trans h1 h2
        subst hde
        refine congrArg _ (ih hl' r hr' fun x => ⟨fun hx => ?_, fun hx => ?_⟩)
        · rcases List.mem_cons.1 ((hmem x).1 (by simp [hx])) with rfl | hxr
          · simpa [Std.ReflCmp.compare_self] using hd x hx
          · exact hxr
        · rcases List.mem_cons.1 ((hmem x).2 (by simp [hx])) with rfl | hxl
          · simpa [Std.ReflCmp.compare_self] using he x hx
          · exact hxl
  subst this
  rfl

theorem get?_filter (p : κ → α → Bool) (m : SortedMap κ α) (k : κ) :
    (m.filter p).get? k = (m.get? k).filter (p k) := by
  have key : ∀ v, (m.filter p).get? k = some v ↔ (m.get? k).filter (p k) = some v := by
    intro v
    rw [← mem_entries_iff, Option.filter_eq_some_iff, ← mem_entries_iff]
    simp [filter]
  cases h : (m.filter p).get? k with
  | some v => exact ((key v).1 h).symm
  | none =>
    cases h' : (m.get? k).filter (p k) with
    | none => rfl
    | some v => simp [(key v).2 h'] at h

@[simp] theorem get?_erase_self (m : SortedMap κ α) (k : κ) : (m.erase k).get? k = none := by
  simp [erase, get?_filter, Std.ReflCmp.compare_self]

theorem get?_erase_of_ne (m : SortedMap κ α) {k k' : κ} (h : k ≠ k') :
    (m.erase k).get? k' = m.get? k' := by
  have : compare k k' ≠ .eq := fun e => h (Std.LawfulEqCmp.eq_of_compare e)
  cases h' : m.get? k' <;> simp [erase, get?_filter, h', this]

end

end SortedMap

end PointerKinds
