/-
The groups partition the unchecked atoms, each around one root.

Two things are followed from the tracing of the atoms through any number of unions.  The
labels are those of the classes of an equivalence relation: the least one that joins every
atom to the unchecked atom it took the kind from, and the two atoms of every union that was
accepted.  And every class has a member that is blamed.  The second is what completing the
groups establishes and what a union, which only ever makes classes larger, cannot undo; so a
union never finds a class to complete, and nobody is blamed after the groups were built.

Everything that is read off the groups follows: the root of an atom is the least member of
its class that is blamed.
-/
import Mathlib.Order.Bounds.Basic
import PointerKinds.Proofs.RootCauses.Origins

namespace PointerKinds

namespace Store

/-- An unchecked atom took the kind from another one. -/
def Linked (s : Store) (a b : AtomKey) : Prop :=
  a ∈ s.wildAtoms ∧ s.wildSource a = .atom b ∧ b ∈ s.wildAtoms

end Store

namespace RootCauses

variable {c : RootCauses} {s : Store} {W : AtomKey → Prop} {R : AtomKey → AtomKey → Prop}
  {a b k l m r x y : AtomKey} {g : List AtomKey}

/-! ### Roots -/

/-- The members of a class are listed in ascending order, so the first blamed one is the least. -/
theorem isLeast_of_rootOf? (h : c.rootOf? l = some r) :
    IsLeast {x | c.label.get? x = some l ∧ c.direct.contains x = true} r := by
  refine ⟨rootOf?_spec h, ?_⟩
  rintro x ⟨hx, hxblamed⟩
  obtain ⟨-, before, after, hsplit, hbefore⟩ := List.find?_eq_some_iff_append.1 h
  have hsorted : (c.classOf l).Pairwise (· < ·) := (c.label.filter _).pairwise_keys
  have hmem : x ∈ c.classOf l := mem_classOf.2 hx
  rw [hsplit] at hsorted hmem
  rcases List.mem_append.1 hmem with hx | hx
  · exact absurd hxblamed (by simpa using hbefore x hx)
  · rcases List.mem_cons.1 hx with rfl | hx
    · exact Nat.le_refl _
    · have hafter := (List.pairwise_append.1 hsorted).2.1
      exact Nat.le_of_lt ((List.pairwise_cons.1 hafter).1 x hx)

/-- The root of an atom is the least blamed member of its class. -/
theorem find_eq_some_iff : c.find k = some r ↔ IsLeast {x | c.Same k x ∧ c.direct.contains x = true} r := by
  unfold find
  cases hk : c.label.get? k with
  | none =>
      refine iff_of_false (by simp) ?_
      rintro ⟨⟨⟨l, hl, -⟩, -⟩, -⟩
      exact absurd (hk.symm.trans hl) (by simp)
  | some l =>
      simp only [Option.bind_some, same_iff hk]
      refine ⟨isLeast_of_rootOf?, fun hleast => ?_⟩
      obtain ⟨r', hr'⟩ : ∃ r', c.rootOf? l = some r' := by
        rw [← Option.ne_none_iff_exists', ne_eq, rootOf?_eq_none]
        intro hnone
        exact absurd hleast.1.2 (by rw [hnone r hleast.1.1]; decide)
      rw [hr', (isLeast_of_rootOf? hr').unique hleast]

/-- A class is listed under its root. -/
theorem group_eq_some (h : c.group r = some g) : c.find r = some r ∧ ∀ x, x ∈ g ↔ c.Same r x := by
  unfold group isRoot at h
  split at h
  · next hroot =>
      obtain ⟨l, hl, rfl⟩ := Option.map_eq_some_iff.1 h
      exact ⟨eq_of_beq hroot, fun x => by rw [mem_classOf, same_iff hl]⟩
  · exact absurd h (by simp)

theorem exists_group (h : c.find r = some r) : ∃ g, c.group r = some g := by
  obtain ⟨⟨l, hl, -⟩, -⟩ := (find_eq_some_iff.1 h).1
  exact ⟨c.classOf l, by simp [group, isRoot, h, hl]⟩

/-! ### Classes of a relation -/

/-- A label is no greater than the atoms it labels. -/
def Least (c : RootCauses) : Prop := ∀ x l, c.label.get? x = some l → l ≤ x

theorem Least.merge (h : c.Least) (a b : AtomKey) : (c.merge a b).Least := by
  intro x v hv
  unfold RootCauses.merge at hv
  split at hv
  · rw [SortedMap.get?_mapValues, Option.map_eq_some_iff] at hv
    obtain ⟨w, hw, rfl⟩ := hv
    have hle : w ≤ x := h x w hw
    split
    · next hmax => exact Nat.le_trans (Nat.le_trans (Nat.min_le_left _ _) (Nat.le_max_left _ _)) (hmax ▸ hle)
    · exact hle
  · exact h x v hv

theorem Least.foldl (h : c.Least) (keys : List AtomKey) : (keys.foldl (trace s) c).Least := by
  induction keys generalizing c with
  | nil => exact h
  | cons key rest ih =>
      refine ih ?_
      rcases trace_cases s c key with ⟨why, he, -⟩ | ⟨other, -, -, he⟩
      · rw [he]
        exact h
      · rw [he]
        exact h.merge key other

theorem least_discrete (keys : List AtomKey) : (discrete keys).Least := by
  intro x l hx
  rw [label_discrete, Option.ite_none_right_eq_some] at hx
  exact Nat.le_of_eq (Option.some.inj hx.2).symm

/-- The labels are those of the classes that a relation generates on some atoms. -/
structure Partitions (W : AtomKey → Prop) (R : AtomKey → AtomKey → Prop) (c : RootCauses) : Prop where
  covers : ∀ x, c.contains x = true ↔ W x
  labelled : c.Labelled
  least : c.Least
  linked : ∀ x y, R x y → c.Same x y
  generated : ∀ x y, c.Same x y → Relation.EqvGen R x y

/-- Every class has a member that is blamed. -/
def Blamed (c : RootCauses) : Prop :=
  ∀ x l, c.label.get? x = some l → ∃ y, c.label.get? y = some l ∧ c.direct.contains y = true

namespace Partitions

theorem same_self (h : Partitions W R c) (hx : W x) : c.Same x x := by
  obtain ⟨l, hl⟩ := contains_iff.1 ((h.covers x).2 hx)
  exact ⟨l, hl, hl⟩

theorem mem_of_same (h : Partitions W R c) (hxy : c.Same x y) : W y := by
  obtain ⟨l, -, hy⟩ := hxy
  exact (h.covers y).1 (contains_iff.2 ⟨l, hy⟩)

/-- Two atoms have one label exactly if the equivalence relates them. -/
theorem same_iff (h : Partitions W R c) (hx : W x) : c.Same x y ↔ Relation.EqvGen R x y := by
  refine ⟨h.generated x y, fun hxy => ?_⟩
  suffices hgen : ∀ {x y}, Relation.EqvGen R x y → x = y ∨ c.Same x y by
    rcases hgen hxy with rfl | hsame
    · exact h.same_self hx
    · exact hsame
  intro x y hxy
  induction hxy with
  | rel x y hxy => exact .inr (h.linked x y hxy)
  | refl x => exact .inl rfl
  | symm x y _ ih =>
      rcases ih with rfl | ih
      · exact .inl rfl
      · exact .inr ih.symm
  | trans x y z _ _ ih ih' =>
      rcases ih with rfl | ih
      · exact ih'
      · rcases ih' with rfl | ih'
        · exact .inr ih
        · exact .inr (ih.trans ih')

theorem congr {c' : RootCauses} (h : Partitions W R c) (hlabel : c'.label = c.label) : Partitions W R c' := by
  obtain ⟨covers, labelled, least, linked, generated⟩ := h
  constructor
  · unfold contains at covers ⊢
    rwa [hlabel]
  · unfold Labelled at labelled ⊢
    rwa [hlabel]
  · unfold Least at least ⊢
    rwa [hlabel]
  · unfold Same at linked ⊢
    rwa [hlabel]
  · unfold Same at generated ⊢
    rwa [hlabel]

/-- After merging, the relation has one pair more. -/
theorem merge (h : Partitions W R c) (ha : W a) (hb : W b) :
    Partitions W (fun x y => R x y ∨ (x, y) = (a, b)) (c.merge a b) := by
  obtain ⟨l, hl⟩ := contains_iff.1 ((h.covers a).2 ha)
  obtain ⟨m, hm⟩ := contains_iff.1 ((h.covers b).2 hb)
  refine ⟨fun x => ?_, h.labelled.merge hl hm, h.least.merge a b, fun x y hxy => ?_, fun x y hxy => ?_⟩
  · rw [contains_merge, h.covers]
  · rcases hxy with hxy | hxy
    · exact (h.linked x y hxy).merge hl hm
    · obtain ⟨rfl, rfl⟩ := Prod.mk.inj hxy
      exact same_merge hl hm
  · refine rel_of_same_merge (Relation.EqvGen.is_equivalence _) (fun x y hxy => ?_) (.rel a b (.inr rfl)) hxy
    exact Relation.EqvGen.mono (fun _ _ => .inl) x y (h.generated x y hxy)

end Partitions

/-! ### Building the groups -/

theorem partitions_traced (s : Store) : Partitions (· ∈ s.wildAtoms) s.Linked s.traced := by
  obtain ⟨⟨hlabelled, hcovers⟩, -, hself⟩ :=
    traced_foldl s.wildAtoms (traced_discrete s) fun _ hkey => hkey
  refine ⟨hcovers, hlabelled, (least_discrete _).foldl s.wildAtoms, fun x y hxy => ?_, ?_⟩
  · exact hself x hxy.1 y hxy.2.1 hxy.2.2
  · refine rel_of_same_foldl (Relation.EqvGen.is_equivalence _) (traced_discrete s) (fun _ hkey => hkey) ?_ ?_
    · exact fun key hkey other hother hsource => .rel key other ⟨hkey, hsource, hother⟩
    · intro x y hxy
      rw [eq_of_same_discrete hxy]
      exact .refl y

theorem partitions_ofStore (s : Store) : Partitions (· ∈ s.wildAtoms) s.Linked (ofStore s) :=
  (partitions_traced s).congr (label_complete _)

/-- Completing the groups leaves none without a member to blame. -/
theorem blamed_ofStore (s : Store) : (ofStore s).Blamed := by
  intro x l hx
  have hx' : s.traced.label.get? x = some l := by
    rwa [ofStore, label_complete] at hx
  obtain ⟨root, hroot⟩ := rootOf?_complete (partitions_traced s).labelled hx'
  exact ⟨root, rootOf?_spec hroot⟩

/-- A class has no root, and an atom for its label, exactly if nobody in it is to be blamed and the
atom is the least. -/
theorem orphan_iff (hx : x ∈ s.wildAtoms) :
    s.traced.label.get? x = some x ∧ s.traced.rootOf? x = none ↔
      ∀ y, Relation.EqvGen s.Linked x y → x ≤ y ∧ blamedFor s y = none := by
  have hparts := partitions_traced s
  have hblamed : ∀ y, s.traced.Same x y → (s.traced.direct.contains y = false ↔ blamedFor s y = none) := by
    intro y hy
    unfold SortedMap.contains
    rw [Store.get?_direct_traced, if_pos (hparts.mem_of_same hy), Option.isSome_eq_false_iff,
      Option.isNone_iff_eq_none]
  obtain ⟨l, hl, -⟩ := hparts.same_self hx
  have hsame : ∀ y, Relation.EqvGen s.Linked x y ↔ s.traced.label.get? y = some l := fun y => by
    rw [← hparts.same_iff hx, RootCauses.same_iff hl]
  rw [rootOf?_eq_none]
  constructor
  · rintro ⟨hlabel, hnone⟩ y hy
    obtain rfl : l = x := Option.some.inj (hl.symm.trans hlabel)
    have hy' := (hsame y).1 hy
    exact ⟨hparts.least y l hy', (hblamed y ⟨l, hl, hy'⟩).1 (hnone y hy')⟩
  · intro hall
    have hll : s.traced.label.get? l = some l := hparts.labelled x l hl
    obtain rfl : l = x := Nat.le_antisymm (hparts.least x l hl) (hall l ((hsame l).2 hll)).1
    exact ⟨hl, fun y hy => (hblamed y ⟨l, hl, hy⟩).2 (hall y ((hsame y).2 hy)).2⟩

/-- An atom is blamed for what its source says, or by default, as the least of a class in which
nobody is to be blamed. -/
theorem get?_direct_ofStore {why : Explanation} :
    (ofStore s).direct.get? x = some why ↔
      x ∈ s.wildAtoms ∧ (blamedFor s x = some why ∨
        why = {} ∧ ∀ y, Relation.EqvGen s.Linked x y → x ≤ y ∧ blamedFor s y = none) := by
  have hdirect : (ofStore s).direct.get? x = _ := get?_direct_complete s.traced x
  rw [hdirect, Store.get?_direct_traced]
  by_cases hx : x ∈ s.wildAtoms
  · rw [if_pos hx, and_iff_right hx]
    split
    · next horphan =>
        have hall := (orphan_iff hx).1 horphan
        have hnone : blamedFor s x = none := (hall x (.refl x)).2
        rw [hnone, or_iff_right (by simp), and_iff_left hall, Option.some.injEq, eq_comm]
    · next horphan => rw [or_iff_left fun h => horphan ((orphan_iff hx).2 h.2)]
  · have hlabel : ¬ (s.traced.label.get? x = some x ∧ s.traced.rootOf? x = none) := fun h =>
      hx (((partitions_traced s).covers x).1 (contains_iff.2 ⟨x, h.1⟩))
    rw [if_neg hlabel, if_neg hx]
    exact iff_of_false (by simp) fun h => hx h.1

/-! ### Unions -/

/-- Merges the groups of each pair in turn. -/
def unionAll (c : RootCauses) (pairs : List (AtomKey × AtomKey)) : RootCauses :=
  pairs.foldl (fun c pair => c.union pair.1 pair.2) c

/-- The pairs that are in different groups when their turn comes. -/
def accepted (c : RootCauses) : List (AtomKey × AtomKey) → List (AtomKey × AtomKey)
  | [] => []
  | (a, b) :: rest =>
    if c.areApart a b then (a, b) :: (c.union a b).accepted rest else (c.union a b).accepted rest

theorem areApart_iff : c.areApart a b = true ↔ c.Same a a ∧ c.Same b b ∧ ¬ c.Same a b := by
  unfold areApart Same
  cases c.label.get? a with
  | none => simp
  | some l =>
      cases c.label.get? b with
      | none => simp
      | some m => simpa using ne_comm

/-- Merging leaves no class without a member to blame. -/
theorem Blamed.merge (h : c.Blamed) (ha : c.label.get? a = some l) (hb : c.label.get? b = some m) :
    (c.merge a b).Blamed := by
  intro x v hx
  rw [label_merge ha hb, Option.map_eq_some_iff] at hx
  obtain ⟨w, hw, rfl⟩ := hx
  obtain ⟨y, hy, hblamed⟩ := h x w hw
  refine ⟨y, ?_, ?_⟩
  · rw [label_merge ha hb, hy, Option.map_some]
  · rwa [direct_merge]

/-- A union of groups that all have a member to blame only merges. -/
theorem union_eq_merge (h : c.Blamed) (hapart : c.areApart a b = true) : c.union a b = c.merge a b := by
  obtain ⟨⟨l, ha, -⟩, ⟨m, hb, -⟩, -⟩ := areApart_iff.1 hapart
  unfold union
  rw [if_pos hapart]
  exact complete_eq_self (h.merge ha hb)

/-- What a run of unions keeps. -/
theorem partitions_unionAll (pairs : List (AtomKey × AtomKey)) (h : Partitions W R c) (hblamed : c.Blamed) :
    Partitions W (fun x y => R x y ∨ (x, y) ∈ c.accepted pairs) (c.unionAll pairs) ∧
      (c.unionAll pairs).Blamed ∧ (c.unionAll pairs).direct = c.direct := by
  induction pairs generalizing c R with
  | nil => simpa [accepted, unionAll] using ⟨h, hblamed⟩
  | cons pair rest ih =>
      obtain ⟨a, b⟩ := pair
      by_cases hapart : c.areApart a b = true
      · have hunion := union_eq_merge hblamed hapart
        obtain ⟨⟨l, ha, -⟩, ⟨m, hb, -⟩, -⟩ := areApart_iff.1 hapart
        have hparts := h.merge ((h.covers a).1 (contains_iff.2 ⟨l, ha⟩)) ((h.covers b).1 (contains_iff.2 ⟨m, hb⟩))
        rw [← hunion] at hparts
        obtain ⟨hparts', hblamed', hdirect⟩ := ih hparts (hunion ▸ hblamed.merge ha hb)
        refine ⟨?_, hblamed', hdirect.trans (hunion ▸ direct_merge c a b)⟩
        simpa only [accepted, unionAll, List.foldl_cons, if_pos hapart, List.mem_cons, or_assoc] using hparts'
      · have hunion : c.union a b = c := if_neg hapart
        have hrest := ih h hblamed
        simpa only [accepted, unionAll, List.foldl_cons, hunion, if_neg hapart] using hrest

/-! ### What is read off the groups -/

/-- The groups partition some atoms into the classes that a relation generates, each around one
root. -/
structure RootedPartition (W : AtomKey → Prop) (R : AtomKey → AtomKey → Prop) (c : RootCauses) : Prop where
  /-- Exactly these atoms have a root. -/
  find_isSome : ∀ k, (c.find k).isSome = true ↔ W k
  /-- Atoms have the same root exactly if the equivalence relates them. -/
  find_eq_iff : ∀ a b, W a → W b → (c.find a = c.find b ↔ Relation.EqvGen R a b)
  /-- A root is its own root, and its group contains the atoms it is the root of. -/
  find_find : ∀ k r, c.find k = some r → c.find r = some r ∧ ∃ g, c.group r = some g ∧ k ∈ g
  /-- Every group is a class. -/
  group_class : ∀ r g, c.group r = some g → ∀ a ∈ g, ∀ b, b ∈ g ↔ Relation.EqvGen R a b
  /-- The groups cover exactly these atoms. -/
  group_cover : ∀ k, (∃ r g, c.group r = some g ∧ k ∈ g) ↔ W k
  /-- Different groups have no atom in common. -/
  group_disjoint : ∀ r r' g g', c.group r = some g → c.group r' = some g' → r ≠ r' →
    ∀ k ∈ g, k ∉ g'
  /-- A group has one root, the least of its members that are blamed. -/
  group_root : ∀ r g, c.group r = some g →
    IsLeast {x | x ∈ g ∧ c.direct.contains x = true} r ∧ ∀ k ∈ g, c.isRoot k = true ↔ k = r
  /-- Exactly the roots have a reason. -/
  reason_isSome : ∀ k, (c.reason k).isSome = true ↔ c.isRoot k = true
  /-- The reason is the one that is recorded. -/
  reason_recorded : ∀ k why, c.reason k = some why → c.direct.get? k = some why
  /-- Exactly the other atoms are listed as no roots. -/
  mem_nonRoots : ∀ k, k ∈ c.nonRoots ↔ W k ∧ c.isRoot k = false
  /-- A union is accepted exactly for two of these atoms that have different roots. -/
  areApart_iff : ∀ a b, c.areApart a b = true ↔ W a ∧ W b ∧ c.find a ≠ c.find b

namespace Partitions

theorem exists_find (h : Partitions W R c) (hblamed : c.Blamed) (hk : W k) : ∃ r, c.find k = some r := by
  obtain ⟨l, hl⟩ := contains_iff.1 ((h.covers k).2 hk)
  obtain ⟨y, hy, hyblamed⟩ := hblamed k l hl
  have hroot : c.rootOf? l ≠ none := fun hnone =>
    absurd hyblamed (by rw [rootOf?_eq_none.1 hnone y hy]; decide)
  obtain ⟨r, hr⟩ := Option.ne_none_iff_exists'.1 hroot
  exact ⟨r, by rw [find, hl, Option.bind_some, hr]⟩

theorem find_eq_iff_same (h : Partitions W R c) (hblamed : c.Blamed) (ha : W a) :
    c.find a = c.find b ↔ c.Same a b := by
  constructor
  · intro he
    obtain ⟨r, hr⟩ := h.exists_find hblamed ha
    have hra : c.Same a r := (find_eq_some_iff.1 hr).1.1
    have hrb : c.Same b r := (find_eq_some_iff.1 (he ▸ hr)).1.1
    exact hra.trans hrb.symm
  · rintro ⟨l, hl, hl'⟩
    rw [find, find, hl, hl']

theorem find_find (h : Partitions W R c) (hblamed : c.Blamed) (hk : c.find k = some r) : c.find r = some r := by
  have hsame : c.Same k r := (find_eq_some_iff.1 hk).1.1
  rwa [← (h.find_eq_iff_same hblamed (h.mem_of_same hsame.symm)).2 hsame]

/-- A group has the atoms with its root. -/
theorem mem_group (h : Partitions W R c) (hblamed : c.Blamed) (hg : c.group r = some g) :
    k ∈ g ↔ c.find k = some r := by
  obtain ⟨hr, hmem⟩ := group_eq_some hg
  have hself : c.Same r r := (find_eq_some_iff.1 hr).1.1
  rw [hmem, ← h.find_eq_iff_same hblamed (h.mem_of_same hself), hr, eq_comm]

/-- Where every class has a member to blame, the classes are read off as a rooted partition. -/
theorem rooted (h : Partitions W R c) (hblamed : c.Blamed) : RootedPartition W R c where
  find_isSome k := by
    rw [Option.isSome_iff_exists]
    constructor
    · rintro ⟨r, hr⟩
      exact h.mem_of_same (find_eq_some_iff.1 hr).1.1.symm
    · exact h.exists_find hblamed
  find_eq_iff a b ha _ := (h.find_eq_iff_same hblamed ha).trans (h.same_iff ha)
  find_find k r hk := by
    have hr := h.find_find hblamed hk
    obtain ⟨g, hg⟩ := exists_group hr
    exact ⟨hr, g, hg, (h.mem_group hblamed hg).2 hk⟩
  group_class r g hg a ha b := by
    have hfind : c.find a = some r := (h.mem_group hblamed hg).1 ha
    have hW : W a := h.mem_of_same (find_eq_some_iff.1 hfind).1.1.symm
    rw [h.mem_group hblamed hg, ← hfind, eq_comm, h.find_eq_iff_same hblamed hW, h.same_iff hW]
  group_cover k := by
    constructor
    · rintro ⟨r, g, hg, hk⟩
      exact h.mem_of_same ((group_eq_some hg).2 k |>.1 hk)
    · intro hk
      obtain ⟨r, hr⟩ := h.exists_find hblamed hk
      obtain ⟨g, hg⟩ := exists_group (h.find_find hblamed hr)
      exact ⟨r, g, hg, (h.mem_group hblamed hg).2 hr⟩
  group_disjoint r r' g g' hg hg' hne k hk hk' := by
    have he : some r = some r' :=
      ((h.mem_group hblamed hg).1 hk).symm.trans ((h.mem_group hblamed hg').1 hk')
    exact hne (Option.some.inj he)
  group_root r g hg := by
    obtain ⟨hr, hmem⟩ := group_eq_some hg
    refine ⟨?_, fun k hk => ?_⟩
    · simp only [hmem]
      exact find_eq_some_iff.1 hr
    · rw [isRoot, (h.mem_group hblamed hg).1 hk, beq_iff_eq, Option.some.injEq, eq_comm]
  reason_isSome k := by
    unfold reason
    split
    · next hroot =>
        have hk : c.find k = some k := eq_of_beq hroot
        exact iff_of_true (find_eq_some_iff.1 hk).1.2 hroot
    · next hroot => exact iff_of_false (by simp) hroot
  reason_recorded k why hwhy := by
    unfold reason at hwhy
    split at hwhy
    · exact hwhy
    · exact absurd hwhy (by simp)
  mem_nonRoots k := by
    rw [nonRoots, List.mem_filter, keys, SortedMap.mem_keys_iff, Bool.not_eq_true']
    exact and_congr_left fun _ => h.covers k
  areApart_iff a b := by
    have hself : ∀ {x}, c.Same x x ↔ W x := fun {x} => ⟨h.mem_of_same, h.same_self⟩
    rw [RootCauses.areApart_iff, hself, hself]
    exact and_congr_right fun ha => and_congr_right fun _ => not_congr (h.find_eq_iff_same hblamed ha).symm

end Partitions

/-- **The groups are a rooted partition.**  Whatever unions follow after the groups of a store are
built, they partition its unchecked atoms into the classes of the sources and of the accepted
unions, each around one root.  Those stay blamed that were when the groups were built: the atoms
with a reason, and the least atom of every class that has none. -/
theorem rootedPartition_unionAll (s : Store) (pairs : List (AtomKey × AtomKey)) :
    let built := ofStore s
    RootedPartition (fun k => s.value k = .wild) (fun a b => s.Linked a b ∨ (a, b) ∈ built.accepted pairs)
        (built.unionAll pairs) ∧
      ∀ k why, (built.unionAll pairs).direct.get? k = some why ↔
        s.value k = .wild ∧ (blamedFor s k = some why ∨
          why = {} ∧ ∀ x, Relation.EqvGen s.Linked k x → k ≤ x ∧ blamedFor s x = none) := by
  obtain ⟨hparts, hblamed, hdirect⟩ := partitions_unionAll pairs (partitions_ofStore s) (blamed_ofStore s)
  simp only [Store.mem_wildAtoms] at hparts
  refine ⟨hparts.rooted hblamed, fun k why => ?_⟩
  rw [hdirect, get?_direct_ofStore, Store.mem_wildAtoms]

end RootCauses

end PointerKinds
