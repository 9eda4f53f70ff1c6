/-
The groups of unchecked atoms.

Groups are kept as labels, and a label is a member of its own group.  Tracing the atoms
only ever merges groups, so an atom ends up in one group with the atom it was made
unchecked by; and completing the groups gives each of them a root.  Together this is what
an edit relies on: the region of an atom holds, with every atom, the one it was made
unchecked by.
-/
import PointerKinds.Proofs.Tables
import PointerKinds.RootCauses.Provenance

namespace PointerKinds

namespace RootCauses

variable {c : RootCauses} {s : Store} {key a b x l m : AtomKey}

/-! ### Labels -/

/-- Every label is a member of its own group. -/
def Labelled (c : RootCauses) : Prop :=
  ∀ x l, c.label.get? x = some l → c.label.get? l = some l

/-- Two atoms are in one group. -/
def Same (c : RootCauses) (a b : AtomKey) : Prop :=
  ∃ l, c.label.get? a = some l ∧ c.label.get? b = some l

theorem Same.symm (h : c.Same a b) : c.Same b a := by
  obtain ⟨l, ha, hb⟩ := h
  exact ⟨l, hb, ha⟩

theorem Same.trans (h : c.Same a b) (h' : c.Same b x) : c.Same a x := by
  obtain ⟨l, ha, hb⟩ := h
  obtain ⟨m, hb', hx⟩ := h'
  obtain rfl := Option.some.inj (hb.symm.trans hb')
  exact ⟨l, ha, hx⟩

theorem same_iff (ha : c.label.get? a = some l) : c.Same a b ↔ c.label.get? b = some l := by
  constructor
  · rintro ⟨m, ha', hb⟩
    rwa [Option.some.inj (ha.symm.trans ha')]
  · exact fun hb => ⟨l, ha, hb⟩

theorem mem_classOf : x ∈ c.classOf l ↔ c.label.get? x = some l := by
  unfold classOf
  rw [SortedMap.mem_keys_iff]
  unfold SortedMap.contains
  rw [SortedMap.get?_filter]
  cases c.label.get? x <;> simp [Option.filter]

/-! ### Merging -/

/-- The greater label becomes the lesser one, which stays. -/
theorem relabel_left (l m : Nat) : (if l = max l m then min l m else l) = min l m := by
  split <;> omega

theorem relabel_right (l m : Nat) : (if m = max l m then min l m else m) = min l m := by
  split <;> omega

theorem label_merge (ha : c.label.get? a = some l) (hb : c.label.get? b = some m) (x : AtomKey) :
    (c.merge a b).label.get? x =
      (c.label.get? x).map fun v => if v = max l m then min l m else v := by
  simp only [merge, ha, hb, SortedMap.get?_mapValues]

/-- Merging gains and loses no atom. -/
theorem contains_merge (c : RootCauses) (a b x : AtomKey) : (c.merge a b).contains x = c.contains x := by
  unfold merge contains SortedMap.contains
  split
  · rw [SortedMap.get?_mapValues, Option.isSome_map]
  · rfl

/-- Merging puts the two atoms in one group. -/
theorem same_merge (ha : c.label.get? a = some l) (hb : c.label.get? b = some m) :
    (c.merge a b).Same a b := by
  refine ⟨min l m, ?_, ?_⟩
  · rw [label_merge ha hb, ha, Option.map_some, relabel_left]
  · rw [label_merge ha hb, hb, Option.map_some, relabel_right]

/-- Merging splits no group. -/
theorem Same.merge (h : c.Same x key) (ha : c.label.get? a = some l) (hb : c.label.get? b = some m) :
    (c.merge a b).Same x key := by
  obtain ⟨v, hx, hkey⟩ := h
  exact ⟨_, by rw [label_merge ha hb, hx, Option.map_some], by
    rw [label_merge ha hb, hkey, Option.map_some]⟩

theorem Labelled.merge (h : c.Labelled) (ha : c.label.get? a = some l)
    (hb : c.label.get? b = some m) : (c.merge a b).Labelled := by
  intro x v hx
  rw [label_merge ha hb] at hx ⊢
  obtain ⟨w, hw, rfl⟩ := Option.map_eq_some_iff.1 hx
  have hl : c.label.get? l = some l := h a l ha
  have hm : c.label.get? m = some m := h b m hb
  by_cases hmax : w = max l m
  · rw [if_pos hmax]
    have hmin : c.label.get? (min l m) = some (min l m) := by
      rcases Nat.le_total l m with hle | hle
      · rwa [Nat.min_eq_left hle]
      · rwa [Nat.min_eq_right hle]
    rw [hmin, Option.map_some, ite_self]
  · rw [if_neg hmax, h x w hw, Option.map_some, if_neg hmax]

/-! ### Tracing -/

/-- What tracing keeps: labels are members, and no atom is gained or lost. -/
structure Traced (s : Store) (c : RootCauses) : Prop where
  labelled : c.Labelled
  covers : ∀ x, c.contains x = true ↔ x ∈ s.wildAtoms

theorem label_discrete (keys : List AtomKey) (x : AtomKey) :
    (discrete keys).label.get? x = if x ∈ keys then some x else none := by
  suffices hfold : ∀ m : SortedMap AtomKey AtomKey,
      ((keys.map fun key => (key, key)).foldl (fun m e => m.insert e.1 e.2) m).get? x =
        if x ∈ keys then some x else m.get? x from hfold ∅
  induction keys with
  | nil => simp
  | cons key rest ih =>
      intro m
      rw [List.map_cons, List.foldl_cons, ih, SortedMap.get?_insert]
      by_cases hrest : x ∈ rest
      · simp [hrest]
      · by_cases hx : x = key <;> simp [hrest, hx]

theorem traced_discrete (s : Store) : Traced s (discrete s.wildAtoms) := by
  constructor
  · intro x l hx
    rw [label_discrete] at hx ⊢
    split at hx
    · rename_i hmem
      obtain rfl := Option.some.inj hx
      rw [if_pos hmem]
    · exact absurd hx (by simp)
  · intro x
    unfold contains SortedMap.contains
    rw [label_discrete]
    by_cases hx : x ∈ s.wildAtoms <;> simp [hx]

theorem eq_of_same_discrete {keys : List AtomKey} (h : (discrete keys).Same a b) : a = b := by
  obtain ⟨l, ha, hb⟩ := h
  rw [label_discrete, Option.ite_none_right_eq_some] at ha hb
  exact (Option.some.inj ha.2).trans (Option.some.inj hb.2).symm

theorem contains_iff : c.contains x = true ↔ ∃ l, c.label.get? x = some l := by
  unfold contains SortedMap.contains
  exact Option.isSome_iff_exists

/-- A trace blames the atom or merges its group with that of its source. -/
theorem trace_cases (s : Store) (c : RootCauses) (key : AtomKey) :
    (∃ why, c.trace s key = c.blame key why ∧
      ∀ other, s.wildSource key = .atom other → c.contains other = false) ∨
    ∃ other, s.wildSource key = .atom other ∧ c.contains other = true ∧
      c.trace s key = c.merge key other := by
  unfold trace
  cases hsource : s.wildSource key with
  | direct why =>
      refine .inl ⟨why, rfl, ?_⟩
      intro other h
      exact absurd h (by simp)
  | atom other =>
      by_cases hc : c.contains other = true
      · exact .inr ⟨other, rfl, hc, by simp only [hc, if_true]⟩
      · refine .inl ⟨{}, by simp only [if_neg hc], ?_⟩
        intro other' h
        rw [← WildSource.atom.inj h]
        exact Bool.eq_false_iff.2 hc

theorem Traced.trace (h : Traced s c) (hkey : key ∈ s.wildAtoms) :
    Traced s (c.trace s key) ∧ (∀ x y, c.Same x y → (c.trace s key).Same x y) ∧
      ∀ other, s.wildSource key = .atom other → other ∈ s.wildAtoms → (c.trace s key).Same key other := by
  rcases trace_cases s c key with ⟨why, he, hno⟩ | ⟨other, hsource, hc, he⟩
  · rw [he]
    refine ⟨⟨h.labelled, h.covers⟩, fun _ _ hxy => hxy, ?_⟩
    intro other hother hmem
    exact absurd ((h.covers other).2 hmem) (by rw [hno other hother]; decide)
  · rw [he]
    obtain ⟨l, hl⟩ := contains_iff.1 ((h.covers key).2 hkey)
    obtain ⟨m, hm⟩ := contains_iff.1 hc
    refine ⟨⟨h.labelled.merge hl hm, fun x => ?_⟩, fun x y hxy => hxy.merge hl hm, ?_⟩
    · rw [contains_merge, h.covers]
    · intro other' hother _
      rw [hsource] at hother
      rw [← WildSource.atom.inj hother]
      exact same_merge hl hm

theorem traced_foldl (keys : List AtomKey) (h : Traced s c) (hkeys : ∀ key ∈ keys, key ∈ s.wildAtoms) :
    Traced s (keys.foldl (RootCauses.trace s) c) ∧
      (∀ x y, c.Same x y → (keys.foldl (RootCauses.trace s) c).Same x y) ∧
      ∀ key ∈ keys, ∀ other, s.wildSource key = .atom other → other ∈ s.wildAtoms →
        (keys.foldl (RootCauses.trace s) c).Same key other := by
  induction keys generalizing c with
  | nil => exact ⟨h, fun _ _ hxy => hxy, fun key hkey => absurd hkey List.not_mem_nil⟩
  | cons key rest ih =>
      obtain ⟨htraced, hmono, hself⟩ := h.trace (hkeys key List.mem_cons_self)
      obtain ⟨htraced', hmono', hrest⟩ := ih htraced fun k hk => hkeys k (List.mem_cons_of_mem key hk)
      refine ⟨htraced', fun x y hxy => hmono' x y (hmono x y hxy), fun k hk other hsource hmem => ?_⟩
      rcases List.mem_cons.1 hk with rfl | hk
      · exact hmono' _ _ (hself other hsource hmem)
      · exact hrest k hk other hsource hmem

/-! ### Completing -/

theorem label_complete (c : RootCauses) : c.complete.label = c.label := by
  unfold complete
  generalize (c.label.keys.filter fun key => c.label.get? key == some key && (c.rootOf? key).isNone) = l
  induction l generalizing c with
  | nil => rfl
  | cons key rest ih => exact ih (c.blame key {})

/-- Completing gives the default reason to the least member of every group that has none. -/
theorem get?_direct_complete (c : RootCauses) (x : AtomKey) :
    c.complete.direct.get? x =
      if c.label.get? x = some x ∧ c.rootOf? x = none then some {} else c.direct.get? x := by
  have hfold : ∀ (keys : List AtomKey) (c : RootCauses),
      (keys.foldl (fun c key => c.blame key {}) c).direct.get? x =
        if x ∈ keys then some {} else c.direct.get? x := by
    intro keys
    induction keys with
    | nil => simp
    | cons key rest ih =>
        intro c
        rw [List.foldl_cons, ih]
        unfold blame
        simp only [SortedMap.get?_insert, List.mem_cons]
        by_cases hx : x = key <;> simp [hx]
  have horphan : (x ∈ c.label.keys.filter fun key => c.label.get? key == some key && (c.rootOf? key).isNone) ↔
      c.label.get? x = some x ∧ c.rootOf? x = none := by
    rw [List.mem_filter, Bool.and_eq_true, beq_iff_eq, Option.isNone_iff_eq_none, SortedMap.mem_keys_iff,
      and_iff_right_iff_imp]
    exact fun h => contains_iff.2 ⟨x, h.1⟩
  unfold complete
  rw [hfold]
  simp only [horphan]

theorem rootOf?_eq_none : c.rootOf? l = none ↔ ∀ x, c.label.get? x = some l → c.direct.contains x = false := by
  unfold rootOf?
  rw [List.find?_eq_none]
  simp only [mem_classOf, Bool.not_eq_true]

theorem rootOf?_spec {root : AtomKey} (h : c.rootOf? l = some root) :
    c.label.get? root = some l ∧ c.direct.contains root = true := by
  unfold rootOf? at h
  exact ⟨mem_classOf.1 (List.mem_of_find?_eq_some h), List.find?_some h⟩

/-- Completing gives every group a root. -/
theorem rootOf?_complete (h : c.Labelled) (hx : c.label.get? x = some l) :
    ∃ root, c.complete.rootOf? l = some root := by
  have hl : c.label.get? l = some l := h x l hx
  rw [← Option.ne_none_iff_exists', ne_eq, rootOf?_eq_none, label_complete]
  intro hnone
  cases hroot : c.rootOf? l with
  | none =>
      have hno := hnone l hl
      unfold SortedMap.contains at hno
      rw [get?_direct_complete, if_pos ⟨hl, hroot⟩] at hno
      exact nomatch hno
  | some root =>
      obtain ⟨hlabel, hyes⟩ := rootOf?_spec hroot
      have hno := hnone root hlabel
      unfold SortedMap.contains at hno hyes
      rw [get?_direct_complete] at hno
      split at hno
      · exact nomatch hno
      · rw [hyes] at hno
        exact nomatch hno

/-- The listed roots are the roots that have a reason, and that is the one listed. -/
theorem mem_roots {root : AtomKey} {why : Explanation} :
    (root, why) ∈ c.roots ↔ c.direct.get? root = some why ∧ c.isRoot root = true := by
  unfold roots
  rw [SortedMap.mem_entries_iff, SortedMap.get?_filter, Option.filter_eq_some_iff]

theorem isRoot_iff {root : AtomKey} :
    c.isRoot root = true ↔ ∃ l, c.label.get? root = some l ∧ c.rootOf? l = some root := by
  unfold isRoot find
  rw [beq_iff_eq, Option.bind_eq_some_iff]

/-! ### The groups of a store -/

theorem contains_ofStore (s : Store) (x : AtomKey) : (ofStore s).contains x = true ↔ x ∈ s.wildAtoms := by
  have htraced := (traced_foldl s.wildAtoms (traced_discrete s) fun _ hkey => hkey).1
  rw [← htraced.covers x]
  unfold contains ofStore
  rw [label_complete]

/-- An atom is in one group with the atom it was made unchecked by. -/
theorem same_ofStore (ha : a ∈ s.wildAtoms) (hb : b ∈ s.wildAtoms) (hsource : s.wildSource a = .atom b) :
    (ofStore s).Same a b := by
  have hsame := (traced_foldl s.wildAtoms (traced_discrete s) fun _ hkey => hkey).2.2 a ha b hsource hb
  unfold Same ofStore
  rwa [label_complete]

/-- Every unchecked atom's group has a root, and all its members find it. -/
theorem exists_root_ofStore (ha : a ∈ s.wildAtoms) :
    ∃ l root, (ofStore s).label.get? a = some l ∧ (ofStore s).rootOf? l = some root ∧
      ∀ x, (ofStore s).label.get? x = some l → (ofStore s).find x = some root := by
  have htraced := (traced_foldl s.wildAtoms (traced_discrete s) fun _ hkey => hkey).1
  obtain ⟨l, hl⟩ := contains_iff.1 ((contains_ofStore s a).2 ha)
  have hl' : (s.wildAtoms.foldl (trace s) (discrete s.wildAtoms)).label.get? a = some l := by
    rwa [ofStore, label_complete] at hl
  obtain ⟨root, hroot⟩ := rootOf?_complete htraced.labelled hl'
  have hroot : (ofStore s).rootOf? l = some root := hroot
  refine ⟨l, root, hl, hroot, fun x hx => ?_⟩
  simp only [find, hx, Option.bind_some, hroot]

/-- The root of an unchecked atom is listed. -/
theorem find_mem_roots (ha : a ∈ s.wildAtoms) :
    ∃ root why, (ofStore s).find a = some root ∧ (root, why) ∈ (ofStore s).roots := by
  obtain ⟨l, root, hl, hroot, hfind⟩ := exists_root_ofStore ha
  obtain ⟨hlabel, hdirect⟩ := rootOf?_spec hroot
  obtain ⟨why, hwhy⟩ := Option.isSome_iff_exists.1 hdirect
  exact ⟨root, why, hfind a hl, mem_roots.2 ⟨hwhy, isRoot_iff.2 ⟨l, hlabel, hroot⟩⟩⟩

/-- The group found by way of an atom's root is the atom's group. -/
theorem mem_group_ofStore (ha : a ∈ s.wildAtoms) :
    ∃ group, ((ofStore s).find a).bind (ofStore s).group = some group ∧
      ∀ x, x ∈ group ↔ (ofStore s).Same a x := by
  obtain ⟨l, root, hl, hroot, hfind⟩ := exists_root_ofStore ha
  have hlabel := (rootOf?_spec hroot).1
  refine ⟨(ofStore s).classOf l, ?_, fun x => ?_⟩
  · rw [hfind a hl, Option.bind_some]
    simp [group, isRoot, hfind root hlabel, hlabel]
  · rw [mem_classOf, same_iff hl]

/-! ### No more than the sources say -/

/-- Merging two groups that belong together keeps groups together that belong together. -/
theorem rel_of_same_merge {R : AtomKey → AtomKey → Prop} (hR : Equivalence R)
    (hc : ∀ x y, c.Same x y → R x y) (hab : R a b) {x y : AtomKey} (h : (c.merge a b).Same x y) :
    R x y := by
  cases ha : c.label.get? a with
  | none =>
      have he : c.merge a b = c := by simp only [merge, ha]
      exact hc x y (he ▸ h)
  | some l =>
      cases hb : c.label.get? b with
      | none =>
          have he : c.merge a b = c := by simp only [merge, ha, hb]
          exact hc x y (he ▸ h)
      | some m =>
          -- Whoever has the common label now had the label of one of the two before.
          have hside : ∀ z v, c.label.get? z = some v → v = l ∨ v = m → R a z := by
            intro z v hz hv
            rcases hv with rfl | rfl
            · exact hc a z ⟨v, ha, hz⟩
            · exact hR.trans hab (hc b z ⟨v, hb, hz⟩)
          obtain ⟨w, hx, hy⟩ := h
          rw [label_merge ha hb] at hx hy
          obtain ⟨v, hv, hvw⟩ := Option.map_eq_some_iff.1 hx
          obtain ⟨v', hv', hvw'⟩ := Option.map_eq_some_iff.1 hy
          by_cases hold : v = l ∨ v = m
          · have hold' : v' = l ∨ v' = m := by
              rcases hold with rfl | rfl <;> grind
            exact hR.trans (hR.symm (hside x v hv hold)) (hside y v' hv' hold')
          · have hsame : v = v' := by grind
            exact hc x y ⟨v, hv, hsame ▸ hv'⟩

/-- Groups are no coarser than any equivalence that puts every atom with its unchecked source. -/
theorem rel_of_same_foldl {R : AtomKey → AtomKey → Prop} (hR : Equivalence R) {keys : List AtomKey}
    (h : Traced s c) (hkeys : ∀ key ∈ keys, key ∈ s.wildAtoms)
    (hstep : ∀ key ∈ keys, ∀ other ∈ s.wildAtoms, s.wildSource key = .atom other → R key other)
    (hc : ∀ x y, c.Same x y → R x y) :
    ∀ x y, (keys.foldl (RootCauses.trace s) c).Same x y → R x y := by
  induction keys generalizing c with
  | nil => exact hc
  | cons key rest ih =>
      refine ih (h.trace (hkeys key List.mem_cons_self)).1 (fun k hk => hkeys k (List.mem_cons_of_mem key hk))
        (fun k hk => hstep k (List.mem_cons_of_mem key hk)) ?_
      rcases trace_cases s c key with ⟨why, he, -⟩ | ⟨other, hsource, hother, he⟩
      · rw [he]
        exact hc
      · rw [he]
        exact fun x y => rel_of_same_merge hR hc
          (hstep key List.mem_cons_self other ((h.covers other).1 hother) hsource)

theorem direct_merge (c : RootCauses) (a b : AtomKey) : (c.merge a b).direct = c.direct := by
  unfold merge
  split <;> rfl

/-- The reason that an atom is unchecked for by itself, if it is. -/
def ownReason (s : Store) (x : AtomKey) : Option Explanation :=
  match s.wildSource x with
  | .direct why => some why
  | .atom _ => none

/-- The reason an unchecked atom is blamed for: its own, or the default one if it took the kind
from an atom that is not unchecked. -/
def blamedFor (s : Store) (x : AtomKey) : Option Explanation :=
  match s.wildSource x with
  | .direct why => some why
  | .atom other => if other ∈ s.wildAtoms then none else some {}

theorem blamedFor_eq_ownReason (h : ∀ other, s.wildSource x = .atom other → other ∈ s.wildAtoms) :
    blamedFor s x = ownReason s x := by
  unfold blamedFor ownReason
  cases hsource : s.wildSource x with
  | direct why => rfl
  | atom other => exact if_pos (h other hsource)

/-- A trace blames the atom for what it is to be blamed for, and no other atom. -/
theorem Traced.get?_direct_trace (h : Traced s c) (hc : c.direct.get? key = none) (x : AtomKey) :
    (c.trace s key).direct.get? x = if x = key then blamedFor s key else c.direct.get? x := by
  unfold RootCauses.trace blamedFor
  cases s.wildSource key with
  | direct why => exact SortedMap.get?_insert _ _ _ _
  | atom other =>
      by_cases hother : other ∈ s.wildAtoms
      · simp only [(h.covers other).2 hother, if_true, direct_merge, if_pos hother]
        split
        · next hx => rw [hx, hc]
        · rfl
      · have hno : c.contains other = false := by
          rw [← Bool.not_eq_true, h.covers]
          exact hother
        simp only [hno, Bool.false_eq_true, if_false, if_neg hother]
        exact SortedMap.get?_insert _ _ _ _

/-- Tracing blames exactly the traced atoms that are to be blamed. -/
theorem get?_direct_foldl {keys : List AtomKey} (hnodup : keys.Nodup) (h : Traced s c)
    (hkeys : ∀ key ∈ keys, key ∈ s.wildAtoms) (hc : ∀ key ∈ keys, c.direct.get? key = none) (x : AtomKey) :
    (keys.foldl (RootCauses.trace s) c).direct.get? x =
      if x ∈ keys then blamedFor s x else c.direct.get? x := by
  induction keys generalizing c with
  | nil => rfl
  | cons key rest ih =>
      obtain ⟨hkey, hrest⟩ := List.nodup_cons.1 hnodup
      have hnone : c.direct.get? key = none := hc key List.mem_cons_self
      have hnext : ∀ k ∈ rest, (c.trace s key).direct.get? k = none := by
        intro k hk
        have hne : k ≠ key := fun e => hkey (e ▸ hk)
        rw [h.get?_direct_trace hnone, if_neg hne, hc k (List.mem_cons_of_mem key hk)]
      rw [List.foldl_cons, ih hrest (h.trace (hkeys key List.mem_cons_self)).1
        (fun k hk => hkeys k (List.mem_cons_of_mem key hk)) hnext, h.get?_direct_trace hnone]
      by_cases hx : x = key
      · rw [hx, if_neg hkey, if_pos rfl, if_pos List.mem_cons_self]
      · simp only [List.mem_cons, hx, false_or, if_false]

/-- Where every group has a member to blame, there is nothing to complete. -/
theorem complete_eq_self (h : ∀ x l, c.label.get? x = some l →
    ∃ y, c.label.get? y = some l ∧ c.direct.contains y = true) : c.complete = c := by
  have horphans : (c.label.keys.filter fun key =>
      c.label.get? key == some key && (c.rootOf? key).isNone) = [] := by
    refine List.filter_eq_nil_iff.2 fun key _ hkey => ?_
    rw [Bool.and_eq_true, beq_iff_eq, Option.isNone_iff_eq_none, rootOf?_eq_none] at hkey
    obtain ⟨y, hy, hdirect⟩ := h key key hkey.1
    rw [hkey.2 y hy] at hdirect
    exact nomatch hdirect
  unfold complete
  rw [horphans]
  rfl

/-- The only member of a group to blame is its root. -/
theorem rootOf?_eq_some {root : AtomKey} (hroot : c.label.get? root = some l)
    (h : ∀ x, c.label.get? x = some l → (c.direct.contains x = true ↔ x = root)) :
    c.rootOf? l = some root := by
  cases hfind : c.rootOf? l with
  | none =>
      have hno := rootOf?_eq_none.1 hfind root hroot
      rw [(h root hroot).2 rfl] at hno
      exact nomatch hno
  | some x =>
      obtain ⟨hx, hdirect⟩ := rootOf?_spec hfind
      rw [(h x hx).1 hdirect]

end RootCauses

end PointerKinds
