/-
Unchecked atoms grouped by what made them so.

The unchecked atoms are partitioned into groups.  In each group some atoms were made
unchecked directly, for a reason of their own; the least of these is the root of the
group, and its reason is the reason of the group.  Two groups may be merged, and then
several atoms of one group have reasons, but the root is one.

The partition is kept as a label on every atom, the least member of its group, so that
two atoms are in one group exactly if their labels are equal, and merging relabels the
group with the greater label.
-/
import PointerKinds.SortedMap
import PointerKinds.Constraint.Basic

namespace PointerKinds

/-- The unchecked atoms, grouped by root cause. -/
structure RootCauses where
  /-- The least member of each atom's group. -/
  label : SortedMap AtomKey AtomKey := ∅
  /-- The atoms made unchecked directly. -/
  direct : SortedMap AtomKey Explanation := ∅
deriving DecidableEq

namespace RootCauses

/-! ### Building groups -/

/-- Every atom in a group of its own. -/
def discrete (keys : List AtomKey) : RootCauses where
  label := .ofList (keys.map fun key => (key, key))

/-- Whether two atoms are unchecked and in different groups. -/
def areApart (c : RootCauses) (a b : AtomKey) : Bool :=
  match c.label.get? a, c.label.get? b with
  | some l, some m => l != m
  | _, _ => false

/-- Makes one group of the groups of two atoms. -/
def merge (c : RootCauses) (a b : AtomKey) : RootCauses :=
  match c.label.get? a, c.label.get? b with
  | some l, some m =>
    { c with label := c.label.mapValues fun _ x => if x = max l m then min l m else x }
  | _, _ => c

/-- Records why an atom is unchecked. -/
def blame (c : RootCauses) (key : AtomKey) (why : Explanation) : RootCauses :=
  { c with direct := c.direct.insert key why }

/-- The members of the group with a label, ascending. -/
def classOf (c : RootCauses) (l : AtomKey) : List AtomKey :=
  (c.label.filter fun _ x => x = l).keys

/-- The least member of a group that has a reason. -/
def rootOf? (c : RootCauses) (l : AtomKey) : Option AtomKey :=
  (c.classOf l).find? c.direct.contains

/-- Gives every group without a reason the default one, at its least member. -/
def complete (c : RootCauses) : RootCauses :=
  let orphans := c.label.keys.filter fun key =>
    c.label.get? key == some key && (c.rootOf? key).isNone
  orphans.foldl (fun c key => c.blame key {}) c

/-- Merges the groups of two unchecked atoms. -/
def union (c : RootCauses) (a b : AtomKey) : RootCauses :=
  if c.areApart a b then (c.merge a b).complete else c

/-! ### Reading -/

/-- The unchecked atoms, ascending. -/
def keys (c : RootCauses) : List AtomKey := c.label.keys

/-- Whether an atom is unchecked. -/
def contains (c : RootCauses) (key : AtomKey) : Bool := c.label.contains key

/-- The root of an unchecked atom's group. -/
def find (c : RootCauses) (key : AtomKey) : Option AtomKey := (c.label.get? key).bind c.rootOf?

/-- Whether an atom is the root of a group. -/
def isRoot (c : RootCauses) (key : AtomKey) : Bool := c.find key == some key

/-- The members of the group with a root, ascending. -/
def group (c : RootCauses) (root : AtomKey) : Option (List AtomKey) :=
  if c.isRoot root then (c.label.get? root).map c.classOf else none

/-- Why a root is unchecked.  Only roots answer. -/
def reason (c : RootCauses) (root : AtomKey) : Option Explanation :=
  if c.isRoot root then c.direct.get? root else none

/-- The roots, ascending, with their reasons. -/
def roots (c : RootCauses) : List (AtomKey × Explanation) :=
  (c.direct.filter fun key _ => c.isRoot key).entries

/-- The unchecked atoms that are not roots, ascending. -/
def nonRoots (c : RootCauses) : List AtomKey := c.keys.filter fun key => !c.isRoot key

/-- The other atoms of an atom's group that have a reason, the root first and the rest in
the order of their keys. -/
def causes (c : RootCauses) (key : AtomKey) : List (AtomKey × Explanation) :=
  match c.find key, c.label.get? key with
  | some root, some l =>
    let others := (c.direct.filter fun k _ => k != key && c.label.get? k == some l).entries
    others.filter (·.1 == root) ++ others.filter (·.1 != root)
  | _, _ => []

end RootCauses

end PointerKinds
