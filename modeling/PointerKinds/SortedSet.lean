/-
Finite sets as strictly increasing lists.

The companion of `SortedMap`: one list for each finite set, listed in order.
-/

namespace PointerKinds

/-- A finite set: a strictly increasing list. -/
structure SortedSet (κ : Type) [Ord κ] where
  /-- The elements, ascending. -/
  toList : List κ
  /-- The elements strictly increase. -/
  sorted : toList.Pairwise fun a b => compare a b = .lt

namespace SortedSet

variable {κ : Type} [Ord κ]

/-! ### Operations on the elements -/

/-- Puts an element in its place, unless it is there. -/
def place (k : κ) : List κ → List κ
  | [] => [k]
  | e :: rest =>
    match compare k e with
    | .lt => k :: e :: rest
    | .eq => e :: rest
    | .gt => e :: place k rest

theorem lt_of_mem_place {a k : κ} {l : List κ} (hk : compare a k = .lt)
    (hl : ∀ e ∈ l, compare a e = .lt) : ∀ e ∈ place k l, compare a e = .lt := by
  induction l with
  | nil => simpa [place] using hk
  | cons d rest ih =>
    intro e he
    simp only [place] at he
    split at he
    · rcases List.mem_cons.1 he with rfl | he
      · exact hk
      · exact hl e he
    · exact hl e he
    · rcases List.mem_cons.1 he with rfl | he
      · exact hl e (by simp)
      · exact ih (fun e he => hl e (by simp [he])) e he

theorem pairwise_place [Std.TransOrd κ] (k : κ) {l : List κ}
    (h : l.Pairwise fun a b => compare a b = .lt) :
    (place k l).Pairwise fun a b => compare a b = .lt := by
  induction l with
  | nil => simp [place]
  | cons d rest ih =>
    obtain ⟨hd, hrest⟩ := List.pairwise_cons.1 h
    simp only [place]
    split
    · rename_i hlt
      refine List.pairwise_cons.2 ⟨fun e he => ?_, h⟩
      rcases List.mem_cons.1 he with rfl | he
      · exact hlt
      · exact Std.TransCmp.lt_trans hlt (hd e he)
    · exact h
    · rename_i hgt
      exact List.pairwise_cons.2
        ⟨lt_of_mem_place (Std.OrientedCmp.gt_iff_lt.1 hgt) hd, ih hrest⟩

/-! ### The set and its operations -/

/-- The set without elements. -/
def empty : SortedSet κ := ⟨[], .nil⟩

instance : EmptyCollection (SortedSet κ) := ⟨empty⟩
instance : Inhabited (SortedSet κ) := ⟨empty⟩

instance [DecidableEq κ] : DecidableEq (SortedSet κ) := fun a b =>
  decidable_of_iff (a.toList = b.toList) <| by cases a; cases b; simp

instance : Membership κ (SortedSet κ) := ⟨fun s k => k ∈ s.toList⟩

instance [DecidableEq κ] (k : κ) (s : SortedSet κ) : Decidable (k ∈ s) :=
  inferInstanceAs (Decidable (k ∈ s.toList))

/-- Whether an element is in the set. -/
def contains (s : SortedSet κ) (k : κ) : Bool := s.toList.any fun e => compare k e == .eq

/-- How many elements there are. -/
def size (s : SortedSet κ) : Nat := s.toList.length

/-- Whether there is no element. -/
def isEmpty (s : SortedSet κ) : Bool := s.toList.isEmpty

/-- The greatest element. -/
def max? (s : SortedSet κ) : Option κ := s.toList.getLast?

/-- Adds an element. -/
def insert [Std.TransOrd κ] (s : SortedSet κ) (k : κ) : SortedSet κ :=
  ⟨place k s.toList, pairwise_place k s.sorted⟩

/-- Keeps the elements that pass a test. -/
def filter (p : κ → Bool) (s : SortedSet κ) : SortedSet κ :=
  ⟨s.toList.filter p, s.sorted.filter _⟩

/-- Removes an element. -/
def erase (s : SortedSet κ) (k : κ) : SortedSet κ := s.filter fun e => compare k e != .eq

/-- The set of the elements of a list. -/
def ofList [Std.TransOrd κ] (l : List κ) : SortedSet κ := l.foldl insert empty

/-- The elements of either set. -/
def union [Std.TransOrd κ] (s t : SortedSet κ) : SortedSet κ := t.toList.foldl insert s

/-! ### Membership after each operation -/

theorem mem_def {k : κ} {s : SortedSet κ} : k ∈ s ↔ k ∈ s.toList := Iff.rfl

@[simp] theorem not_mem_empty (k : κ) : k ∉ (empty : SortedSet κ) := by simp [mem_def, empty]

theorem mem_filter {p : κ → Bool} {s : SortedSet κ} {a : κ} :
    a ∈ s.filter p ↔ a ∈ s ∧ p a = true := by simp [mem_def, filter]

section
variable [Std.LawfulEqOrd κ]

theorem contains_iff {s : SortedSet κ} {k : κ} : s.contains k = true ↔ k ∈ s := by
  simp only [contains, List.any_eq_true, mem_def, beq_iff_eq]
  constructor
  · rintro ⟨e, he, h⟩
    rw [Std.LawfulEqCmp.eq_of_compare h]
    exact he
  · intro h
    exact ⟨k, h, Std.ReflCmp.compare_self⟩

theorem mem_place {a k : κ} {l : List κ} : a ∈ place k l ↔ a = k ∨ a ∈ l := by
  induction l with
  | nil => simp [place]
  | cons d rest ih =>
    simp only [place]
    split
    · simp
    · rename_i h; simp [Std.LawfulEqCmp.eq_of_compare h]
    · simp only [List.mem_cons, ih]
      exact ⟨fun h => h.elim (fun h => .inr (.inl h)) fun h => h.elim .inl fun h => .inr (.inr h),
        fun h => h.elim (fun h => .inr (.inl h)) fun h => h.elim .inl fun h => .inr (.inr h)⟩

theorem mem_erase {s : SortedSet κ} {a k : κ} : a ∈ s.erase k ↔ a ∈ s ∧ a ≠ k := by
  rw [erase, mem_filter, bne_iff_ne, ne_eq, Std.LawfulEqCmp.compare_eq_iff_eq, eq_comm]

variable [Std.TransOrd κ]

@[simp] theorem mem_insert {s : SortedSet κ} {a k : κ} : a ∈ s.insert k ↔ a = k ∨ a ∈ s := mem_place

theorem mem_foldl_insert {l : List κ} {s : SortedSet κ} {a : κ} :
    a ∈ l.foldl insert s ↔ a ∈ l ∨ a ∈ s := by
  induction l generalizing s with
  | nil => simp
  | cons d rest ih =>
    rw [List.foldl_cons, ih, mem_insert, List.mem_cons]
    exact ⟨fun h => h.elim (fun h => .inl (.inr h)) fun h => h.elim (fun h => .inl (.inl h)) .inr,
      fun h => h.elim (fun h => h.elim (fun h => .inr (.inl h)) .inl) fun h => .inr (.inr h)⟩

theorem mem_ofList {l : List κ} {a : κ} : a ∈ ofList l ↔ a ∈ l := by
  rw [ofList, mem_foldl_insert]; simp

theorem mem_union {s t : SortedSet κ} {a : κ} : a ∈ s.union t ↔ a ∈ s ∨ a ∈ t := by
  rw [union, mem_foldl_insert, ← mem_def, or_comm]

/-- Two sets with the same elements are the same set. -/
theorem ext_mem {s t : SortedSet κ} (h : ∀ k, k ∈ s ↔ k ∈ t) : s = t := by
  obtain ⟨l, hl⟩ := s
  obtain ⟨r, hr⟩ := t
  simp only [mem_def] at h
  have : l = r := by
    induction l generalizing r with
    | nil =>
      cases r with
      | nil => rfl
      | cons e r => simpa using (h e).2 (by simp)
    | cons d l ih =>
      cases r with
      | nil => simpa using (h d).1 (by simp)
      | cons e r =>
        obtain ⟨hd, hl'⟩ := List.pairwise_cons.1 hl
        obtain ⟨he, hr'⟩ := List.pairwise_cons.1 hr
        have hde : d = e := by
          rcases List.mem_cons.1 ((h d).1 (by simp)) with hde | hdr
          · exact hde
          · rcases List.mem_cons.1 ((h e).2 (by simp)) with hed | hel
            · exact hed.symm
            · simpa [Std.ReflCmp.compare_self] using Std.TransCmp.lt_trans (he d hdr) (hd e hel)
        subst hde
        refine congrArg _ (ih hl' r hr' fun x => ⟨fun hx => ?_, fun hx => ?_⟩)
        · rcases List.mem_cons.1 ((h x).1 (by simp [hx])) with rfl | hxr
          · simpa [Std.ReflCmp.compare_self] using hd x hx
          · exact hxr
        · rcases List.mem_cons.1 ((h x).2 (by simp [hx])) with rfl | hxl
          · simpa [Std.ReflCmp.compare_self] using he x hx
          · exact hxl
  subst this
  rfl

end

end SortedSet

end PointerKinds
