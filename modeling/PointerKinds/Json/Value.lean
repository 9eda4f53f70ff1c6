/-
JSON values.

An object keeps its fields in the order and number in which they were written, so that a
reader can refuse a field that is given twice.  Numbers that are not integers of 64 bits
have no meaning in any form used here, and keep their spelling only.

A text may be well-formed where it has no value: a number may be too large, and a string
may hold half a character.  Such a part is unreadable, and no form that is used accepts
it; a field that nobody asks for may hold one.
-/

namespace PointerKinds

/-- A JSON value. -/
inductive Json where
  | null
  | bool (value : Bool)
  | int (value : Int)
  /-- Any other number, as it is spelled. -/
  | real (spelling : String)
  | string (value : String)
  | array (items : List Json)
  | object (fields : List (String × Json))
  /-- What is well-formed and has no value. -/
  | unreadable

namespace Json

/-! ### Unreadable parts -/

mutual

/-- Whether all of a value can be read: no part is unreadable, and arrays and objects
stand in each other no more than the given number of times. -/
def isReadable : (depth : Nat) → Json → Bool
  | 0, array _ => false
  | depth + 1, array items => allReadable depth items
  | 0, object _ => false
  | depth + 1, object fields => fieldsReadable depth fields
  | _, unreadable => false
  | _, _ => true

/-- The same for the items of an array. -/
def allReadable (depth : Nat) : List Json → Bool
  | [] => true
  | j :: js => j.isReadable depth && allReadable depth js

/-- The same for the fields of an object. -/
def fieldsReadable (depth : Nat) : List (String × Json) → Bool
  | [] => true
  | (_, v) :: fs => v.isReadable depth && fieldsReadable depth fs

end

/-! ### Repeated fields -/

/-- Puts a field in front, unless the field is given again later. -/
def keepLast (key : String) (value : Json) (rest : List (String × Json)) : List (String × Json) :=
  if rest.any (·.1 == key) then rest else (key, value) :: rest

mutual

/-- Of fields of one name in one object, keeps the last. -/
def lastWins : Json → Json
  | array items => array (lastWinsAll items)
  | object fields => object (lastWinsFields fields)
  | j => j

/-- The same for the items of an array. -/
def lastWinsAll : List Json → List Json
  | [] => []
  | j :: js => j.lastWins :: lastWinsAll js

/-- The same for the fields of an object. -/
def lastWinsFields : List (String × Json) → List (String × Json)
  | [] => []
  | (k, v) :: fs => keepLast k v.lastWins (lastWinsFields fs)

end

/-! ### Parts -/

/-- A value inside another. -/
abbrev Part (j : Json) := { v : Json // sizeOf v < sizeOf j }

theorem sizeOf_item_lt {items : List Json} {v : Json} (h : v ∈ items) :
    sizeOf v < sizeOf (array items) := by
  have := List.sizeOf_lt_of_mem h
  simp only [array.sizeOf_spec]
  omega

theorem sizeOf_field_lt {fields : List (String × Json)} {f : String × Json} (h : f ∈ fields) :
    sizeOf f.2 < sizeOf (object fields) := by
  have := List.sizeOf_lt_of_mem h
  obtain ⟨k, v⟩ := f
  simp only [Prod.mk.sizeOf_spec, object.sizeOf_spec] at *
  omega

/-- The items of an array. -/
def items? : (j : Json) → Option (List (Part j))
  | array items => some (items.attach.map fun v => ⟨v.1, sizeOf_item_lt v.2⟩)
  | _ => none

/-- The values of the fields of a name. -/
def valuesOf (name : String) : (j : Json) → List (Part j)
  | object fields =>
    fields.attach.filterMap fun f =>
      if f.1.1 = name then some ⟨f.1.2, sizeOf_field_lt f.2⟩ else none
  | _ => []

/-- The value of a field, if there is one; a field that is given twice is a mistake. -/
def field? (name : String) (j : Json) : Option (Option (Part j)) :=
  match j.valuesOf name with
  | [] => some none
  | [v] => some (some v)
  | _ => none

/-- Whether a value is an object. -/
def isObject : Json → Bool
  | object _ => true
  | _ => false

/-- The parts of a record with the given fields: by name from an object, and by position
from an array, which may be cut short. -/
def record? (names : List String) (j : Json) : Option (List (Option (Part j))) :=
  match j.items? with
  | some items =>
    if items.length ≤ names.length then
      some (items.map some ++ List.replicate (names.length - items.length) none)
    else none
  | none => if j.isObject then names.mapM fun name => j.field? name else none

/-- The name and the content of a choice: a name alone, or an object whose only field has
the name. -/
def choice? : (j : Json) → Option (String × Option (Part j))
  | string name => some (name, none)
  | object [(name, v)] => some (name, some ⟨v, sizeOf_field_lt (f := (name, v)) (List.mem_singleton_self _)⟩)
  | _ => none

/-- How freely a choice may be written. -/
inductive Strictness where
  /-- Nothing is written as null, and fields are given by name. -/
  | strict
  /-- Nothing may also be an empty object, and fields may be given by position. -/
  | lenient

/-- Whether the content of a choice is nothing. -/
def isNothing : Strictness → Json → Bool
  | _, null => true
  | .lenient, object [] => true
  | _, _ => false

/-- The parts of a record that is the content of a choice. -/
def content? (s : Strictness) (names : List String) (j : Json) :
    Option (List (Option (Part j))) :=
  match s with
  | .strict => if j.isObject then j.record? names else none
  | .lenient => j.record? names

/-! ### Reading parts -/

def string? : Json → Option String
  | string s => some s
  | _ => none

def bool? : Json → Option Bool
  | bool b => some b
  | _ => none

/-- An integer from zero up to, and not including, a limit. -/
def natBelow? (limit : Nat) : Json → Option Nat
  | int i => if 0 ≤ i ∧ i < limit then some i.toNat else none
  | _ => none

/-- Numbers of 32 bits are below this one. -/
def wordLimit : Nat := 4294967296

/-- Numbers of 64 bits are below this one. -/
def longWordLimit : Nat := 18446744073709551616

/-- A number of 32 bits. -/
def word? : Json → Option Nat := natBelow? wordLimit

/-- A number of 64 bits. -/
def longWord? : Json → Option Nat := natBelow? longWordLimit

/-- A value or null. -/
def nullable? {α : Type} (read : Json → Option α) : Json → Option (Option α)
  | null => some none
  | j => (read j).map some

/-- A list of values. -/
def list? {α : Type} (read : Json → Option α) (j : Json) : Option (List α) :=
  j.items?.bind fun items => items.mapM fun v => read v.1

/-- A part that must be there. -/
def required? {α : Type} {j : Json} (read : Json → Option α) (part : Option (Part j)) : Option α :=
  part.bind fun v => read v.1

/-- A part that stands for a default if it is missing. -/
def withDefault? {α : Type} {j : Json} (default : α) (read : Json → Option α)
    (part : Option (Part j)) : Option α :=
  match part with
  | some v => read v.1
  | none => some default

/-- A part that may be missing or null. -/
def optional? {α : Type} {j : Json} (read : Json → Option α) (part : Option (Part j)) :
    Option (Option α) :=
  withDefault? none (nullable? read) part

/-- A choice without content: the name alone, or with nothing. -/
def name? (s : Strictness) (j : Json) : Option String :=
  match j.choice? with
  | some (name, none) => some name
  | some (name, some v) => if v.1.isNothing s then some name else none
  | none => none

/-! ### Making values -/

/-- A natural number. -/
def nat (n : Nat) : Json := int n

/-- A value, or null for nothing. -/
def option {α : Type} (f : α → Json) : Option α → Json
  | some a => f a
  | none => null

/-- An array of values. -/
def list {α : Type} (f : α → Json) (l : List α) : Json := array (l.map f)

end Json

end PointerKinds
