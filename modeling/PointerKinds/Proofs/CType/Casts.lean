/-
Casts that are safe form an equivalence.

Whether a cast is safe is decided from the outside in: two pointers by what they point to, two
scalars by their arithmetic, anything else by being the same type.  So a cast sees less of a type
than there is.  Along the pointers it follows it does not see the marks, and of a scalar at their
end it does not see the name; below an array or inside a function type it sees all there is.

`reading` is the type as a cast sees it, and a cast is safe exactly if both sides read alike.
Being read alike is an equivalence whatever the reading is, which is why it does not matter in
which order the cases are asked, nor that identical types could be let through at once.
-/
import PointerKinds.CType.Basic

namespace PointerKinds

namespace CType

variable {t u : CType}

/-! ### What a cast sees of a type -/

/-- A type without the marks of the pointers that lead into it, and without the name of a scalar
at their end. -/
def reading : CType → CType
  | pointer pointee _ => pointer pointee.reading none
  | scalar _ arithmetic => scalar "" arithmetic
  | t => t

/-- Nothing but a pointer reads as a pointer. -/
@[simp] theorem isPointer_reading (t : CType) : t.reading.isPointer = t.isPointer := by
  cases t <;> rfl

/-- Reading keeps every level. -/
@[simp] theorem depth_reading : ∀ t : CType, t.reading.depth = t.depth
  | pointer pointee _ => by simp only [reading, depth, depth_reading pointee]
  | void | scalar .. | record _ | array .. | function .. => rfl

/-- A cast is safe if both sides read alike. -/
theorem castSafe_iff (t u : CType) : t.castSafe u = true ↔ t.reading = u.reading := by
  fun_induction castSafe t u with
  | case1 pointee _ pointee' _ ih =>
      simp only [reading, pointer.injEq, and_true]
      exact ih
  | case2 name arithmetic name' arithmetic' =>
      simp only [reading, scalar.injEq, true_and, decide_eq_true_eq]
  | case3 t u hpointers hscalars =>
      rw [decide_eq_true_eq]
      constructor
      · intro h
        rw [h]
      · intro h
        -- The readings are of one kind, and it is neither that of two pointers nor that of two scalars.
        cases t <;> cases u <;> simp only [reading, reduceCtorEq] at h
        all_goals first
          | rfl
          | exact h
          | exact absurd rfl (hpointers _ _ _ _ rfl)
          | exact absurd rfl (hscalars _ _ _ _ rfl)

/-- A pointer reads like nothing that is not one. -/
theorem isPointer_eq_of_castSafe (h : t.castSafe u = true) : t.isPointer = u.isPointer := by
  rw [← isPointer_reading t, ← isPointer_reading u, (castSafe_iff t u).1 h]

/-! ### Identity first -/

/-- The rule with its cases in another order.  At every level identical types are safe before
anything else is asked; of others, a pointer is compared with a pointer only, and a scalar with a
scalar only. -/
def safeByCases (t u : CType) : Bool :=
  if t = u then true
  else match t, u with
    | pointer p _, pointer q _ => p.safeByCases q
    | pointer .., _ => false
    | _, pointer .. => false
    | scalar _ c, scalar _ c' => c = c'
    | _, _ => false

/-- The order of the cases makes no difference: what identity lets through is safe in any case. -/
theorem castSafe_eq_safeByCases (t u : CType) : t.castSafe u = t.safeByCases u := by
  fun_induction castSafe t u with
  | case1 pointee mark pointee' mark' ih =>
      unfold safeByCases
      by_cases hsame : pointer pointee mark = pointer pointee' mark'
      · rw [if_pos hsame, castSafe_iff, (pointer.inj hsame).1]
      · rw [if_neg hsame, ih]
  | case2 name arithmetic name' arithmetic' =>
      unfold safeByCases
      by_cases hsame : scalar name arithmetic = scalar name' arithmetic'
      · rw [if_pos hsame, (scalar.inj hsame).2, decide_eq_true rfl]
      · rw [if_neg hsame]
  | case3 t u hpointers hscalars =>
      unfold safeByCases
      by_cases hsame : t = u
      · rw [if_pos hsame, decide_eq_true hsame]
      · rw [if_neg hsame, decide_eq_false hsame]
        split
        · exact absurd rfl (hpointers _ _ _ _ rfl)
        · rfl
        · rfl
        · exact absurd rfl (hscalars _ _ _ _ rfl)
        · rfl

/-! ### The relation -/

/-- **Cast safety is an equivalence that preserves depth.**  Every type may be read as itself, a
safe cast may be undone, and safe casts may be chained, whatever the types and however deep.  A
safe cast leads to as many levels as it comes from.  One more pointer on both sides, marked in any
two ways, makes no difference to it, and no cast between a pointer and anything else is safe.
Letting identical types through first, at any level, would not change an answer. -/
theorem castSafe_equivalence :
    Equivalence (fun t u : CType => t.castSafe u = true) ∧
      (∀ t u : CType, t.castSafe u = true → t.depth = u.depth) ∧
      (∀ (t u : CType) (mark mark' : Option CheckedForm), (pointer t mark).castSafe (pointer u mark') = t.castSafe u) ∧
      (∀ t u : CType, t.isPointer ≠ u.isPointer → t.castSafe u = false) ∧
      ∀ t u : CType, t.castSafe u = t.safeByCases u := by
  refine ⟨⟨?_, ?_, ?_⟩, ?_, ?_, ?_, castSafe_eq_safeByCases⟩
  · intro t
    exact (castSafe_iff t t).2 rfl
  · intro t u h
    exact (castSafe_iff u t).2 ((castSafe_iff t u).1 h).symm
  · intro t u w htu huw
    exact (castSafe_iff t w).2 (((castSafe_iff t u).1 htu).trans ((castSafe_iff u w).1 huw))
  · intro t u h
    rw [← depth_reading t, ← depth_reading u, (castSafe_iff t u).1 h]
  · intro t u mark mark'
    rw [castSafe]
  · intro t u hne
    rw [← Bool.not_eq_true]
    intro hsafe
    exact hne (isPointer_eq_of_castSafe hsafe)

/-- Marks and the names of scalars are not seen through pointers, but sizes of arrays are. -/
example :
    let named (name : String) (mark : Option CheckedForm) := pointer (pointer (scalar name .integer) mark) none
    let sized (n : Nat) := pointer (array (scalar "int" .integer) (some n)) none
    (named "int" none).castSafe (named "unsigned" (some .array)) = true ∧ (sized 3).castSafe (sized 4) = false := by
  decide

end CType

end PointerKinds
