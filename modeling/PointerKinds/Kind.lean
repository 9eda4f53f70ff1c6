/-
The kinds a pointer can have.

Every level of every pointer in the program under analysis is given one of four
kinds.  They form a chain: a plain checked pointer promises the most, a pointer
into an array less, one into a null-terminated array less still, and an unchecked
pointer nothing at all.  Solving only ever moves a pointer up this chain, so the
chain is also the order of "has given up more".

The order is read off `rank`, which is why every comparison below is a comparison
of two small numbers.
-/

namespace PointerKinds

/-- What is known about a pointer, from the most to the least checked. -/
inductive Kind where
  /-- A checked pointer to one object. -/
  | ptr
  /-- A checked pointer into an array. -/
  | arr
  /-- A checked pointer into a null-terminated array. -/
  | ntArr
  /-- An unchecked pointer. -/
  | wild
deriving DecidableEq

namespace Kind

/-- All kinds, in ascending order. -/
def all : List Kind := [ptr, arr, ntArr, wild]

/-- The height of a kind in the chain. -/
def rank : Kind → Nat
  | ptr => 0
  | arr => 1
  | ntArr => 2
  | wild => 3

instance : LE Kind := ⟨fun a b => a.rank ≤ b.rank⟩
instance : LT Kind := ⟨fun a b => a.rank < b.rank⟩
instance (a b : Kind) : Decidable (a ≤ b) := inferInstanceAs (Decidable (a.rank ≤ b.rank))
instance (a b : Kind) : Decidable (a < b) := inferInstanceAs (Decidable (a.rank < b.rank))
instance : Ord Kind := ⟨fun a b => compare a.rank b.rank⟩

instance : Std.TransOrd Kind where
  eq_swap := by intro a b; cases a <;> cases b <;> rfl
  isLE_trans := by intro a b c; cases a <;> cases b <;> cases c <;> decide

instance : Std.LawfulEqOrd Kind where
  compare_self := by intro a; cases a <;> rfl
  eq_of_compare := by intro a b; cases a <;> cases b <;> decide

/-- The least kind above both. -/
def join (a b : Kind) : Kind := if a < b then b else a

/-- Everything short of `wild` is checked. -/
def isChecked (k : Kind) : Bool := k != wild

/-- The spelling used in constraint texts and in dumps. -/
def name : Kind → String
  | ptr => "PTR"
  | arr => "ARR"
  | ntArr => "NTARR"
  | wild => "WILD"

/-- Reads the spelling back. -/
def ofName? : String → Option Kind
  | "PTR" => some ptr
  | "ARR" => some arr
  | "NTARR" => some ntArr
  | "WILD" => some wild
  | _ => none

@[simp] theorem ofName?_name (k : Kind) : ofName? k.name = some k := by cases k <;> rfl

theorem rank_inj {a b : Kind} : a.rank = b.rank ↔ a = b := by
  cases a <;> cases b <;> simp [rank]

theorem rank_le_three (k : Kind) : k.rank ≤ 3 := by cases k <;> decide

theorem le_def {a b : Kind} : a ≤ b ↔ a.rank ≤ b.rank := Iff.rfl

theorem lt_def {a b : Kind} : a < b ↔ a.rank < b.rank := Iff.rfl

end Kind

end PointerKinds
