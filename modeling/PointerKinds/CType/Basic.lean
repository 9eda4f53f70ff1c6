/-
C types, as far as pointers are concerned.

A type is a tower of pointer and array levels over a base: a scalar, a record, nothing
at all, or a function type.  A checked pointer already written in the source carries
its mark; qualifiers do not matter here.
-/

namespace PointerKinds

/-- The arithmetic of a scalar. -/
inductive ScalarClass where
  | char
  | integer
  | floating
deriving DecidableEq

/-- How a pointer that is already checked is written. -/
inductive CheckedForm where
  | ptr
  | array
  | ntArray
deriving DecidableEq

/-- A C type without qualifiers. -/
inductive CType where
  | void
  | scalar (name : String) (arithmetic : ScalarClass)
  /-- A record type, by tag. -/
  | record (tag : String)
  | pointer (pointee : CType) (checked : Option CheckedForm)
  /-- An array; a size that is not a constant is unknown. -/
  | array (element : CType) (size : Option Nat)
  | function (ret : CType) (params : List CType) (variadic : Bool)

/-- The type of a function. -/
structure Signature where
  ret : CType
  params : List CType
  variadic : Bool := false

namespace CType

/-! ### Equality -/

mutual

/-- Whether two types are the same in every detail. -/
def beq : CType → CType → Bool
  | void, void => true
  | scalar n c, scalar n' c' => n == n' && c == c'
  | record t, record t' => t == t'
  | pointer p a, pointer p' a' => beq p p' && a == a'
  | array e n, array e' n' => beq e e' && n == n'
  | function r ps v, function r' ps' v' => beq r r' && beqAll ps ps' && v == v'
  | _, _ => false

/-- The same for lists of types. -/
def beqAll : List CType → List CType → Bool
  | [], [] => true
  | a :: as, b :: bs => beq a b && beqAll as bs
  | _, _ => false

end

mutual

theorem eq_of_beq : ∀ {a b : CType}, beq a b = true → a = b
  | void, b, h => by cases b <;> simp_all [beq]
  | scalar .., b, h => by cases b <;> simp_all [beq]
  | record _, b, h => by cases b <;> simp_all [beq]
  | pointer p _, b, h => by
    cases b <;> simp only [beq, Bool.and_eq_true, beq_iff_eq, Bool.false_eq_true] at h
    rw [eq_of_beq h.1, h.2]
  | array e _, b, h => by
    cases b <;> simp only [beq, Bool.and_eq_true, beq_iff_eq, Bool.false_eq_true] at h
    rw [eq_of_beq h.1, h.2]
  | function r ps _, b, h => by
    cases b <;> simp only [beq, Bool.and_eq_true, beq_iff_eq, Bool.false_eq_true] at h
    rw [eq_of_beq h.1.1, eq_of_beqAll h.1.2, h.2]

theorem eq_of_beqAll : ∀ {as bs : List CType}, beqAll as bs = true → as = bs
  | [], [], _ => rfl
  | [], _ :: _, h => by simp [beqAll] at h
  | _ :: _, [], h => by simp [beqAll] at h
  | a :: as, b :: bs, h => by
    simp only [beqAll, Bool.and_eq_true] at h
    rw [eq_of_beq h.1, eq_of_beqAll h.2]

end

mutual

theorem beq_self : ∀ a : CType, beq a a = true
  | void => rfl
  | scalar .. => by simp [beq]
  | record _ => by simp [beq]
  | pointer p _ => by simp [beq, beq_self p]
  | array e _ => by simp [beq, beq_self e]
  | function r ps _ => by simp [beq, beq_self r, beqAll_self ps]

theorem beqAll_self : ∀ as : List CType, beqAll as as = true
  | [] => rfl
  | a :: as => by simp [beqAll, beq_self a, beqAll_self as]

end

instance : DecidableEq CType := fun a b =>
  decidable_of_iff (beq a b = true) ⟨eq_of_beq, fun h => h ▸ beq_self a⟩

/-! ### Levels and base -/

/-- What one pointer or array level leads to. -/
def pointee? : CType → Option CType
  | pointer p _ => some p
  | array e _ => some e
  | _ => none

/-- How many pointer and array levels there are. -/
def depth : CType → Nat
  | pointer p _ => p.depth + 1
  | array e _ => e.depth + 1
  | _ => 0

/-- What is left without the levels. -/
def base : CType → CType
  | pointer p _ => p.base
  | array e _ => e.base
  | t => t

def isPointer : CType → Bool
  | pointer .. => true
  | _ => false

def isScalar : CType → Bool
  | scalar .. => true
  | _ => false

/-- The signature of a function type. -/
def signature? : CType → Option Signature
  | function ret params variadic => some { ret, params, variadic }
  | _ => none

/-- Whether a type is a character type itself. -/
def isChar : CType → Bool
  | scalar _ .char => true
  | _ => false

/-- The function type with a signature. -/
def ofSignature (sig : Signature) : CType := .function sig.ret sig.params sig.variadic

/-! ### Casts -/

/-- Whether a value of one type may be read as another without upsetting pointers.
Pointers go by what they point to, scalars by their arithmetic; everything else has to
be the same type. -/
def castSafe : CType → CType → Bool
  | pointer p _, pointer q _ => castSafe p q
  | scalar _ c, scalar _ c' => c = c'
  | t, u => t = u

/-! ### Text -/

mutual

/-- The type from the inside out: base first, then a mark for every level. -/
def text : CType → String
  | void => "void"
  | scalar name _ => name
  | record tag => "struct " ++ tag
  | pointer p _ => p.text ++ " *"
  | array e (some n) => e.text ++ " [" ++ toString n ++ "]"
  | array e none => e.text ++ " []"
  | function ret params variadic =>
    ret.text ++ " (" ++ ", ".intercalate (texts params ++ if variadic then ["..."] else []) ++ ")"

/-- The texts of several types. -/
def texts : List CType → List String
  | [] => []
  | t :: ts => t.text :: texts ts

end

end CType

end PointerKinds
