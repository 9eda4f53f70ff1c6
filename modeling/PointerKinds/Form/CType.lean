/-
The JSON form of types.

A type is written as a choice with its parts as content.  How freely choices may be
written is up to whoever reads, and is the same at every level.  Reading goes down the
value: every part of a value is smaller than the value.
-/
import PointerKinds.CType.Basic
import PointerKinds.Json.Value

namespace PointerKinds

namespace ScalarClass

def name : ScalarClass → String
  | char => "char"
  | integer => "integer"
  | floating => "floating"

def ofName? : String → Option ScalarClass
  | "char" => some char
  | "integer" => some integer
  | "floating" => some floating
  | _ => none

end ScalarClass

namespace CheckedForm

def name : CheckedForm → String
  | ptr => "ptr"
  | array => "array"
  | ntArray => "nt_array"

def ofName? : String → Option CheckedForm
  | "ptr" => some ptr
  | "array" => some array
  | "nt_array" => some ntArray
  | _ => none

end CheckedForm

namespace CType

/-! ### Writing -/

mutual

def toJson : CType → Json
  | void => .string "void"
  | scalar name arithmetic =>
    .object [("scalar", .object [("name", .string name), ("class", .string arithmetic.name)])]
  | record tag => .object [("record", .string tag)]
  | pointer pointee checked =>
    .object [("pointer", .object [("pointee", pointee.toJson),
      ("checked", .option (fun c => .string c.name) checked)])]
  | array element size =>
    .object [("array", .object [("element", element.toJson), ("size", .option .nat size)])]
  | function ret params variadic =>
    .object [("function", .object [("ret", ret.toJson), ("params", .array (toJsonAll params)),
      ("variadic", .bool variadic)])]

def toJsonAll : List CType → List Json
  | [] => []
  | t :: ts => t.toJson :: toJsonAll ts

end

/-! ### Reading -/

mutual

def ofJson? (s : Json.Strictness) (j : Json) : Option CType :=
  match j.choice? with
  | some ("void", none) => some .void
  | some ("void", some v) => if v.1.isNothing s then some .void else none
  | some ("scalar", some v) =>
    match v.1.content? s ["name", "class"] with
    | some [name, arithmetic] => do
      return .scalar (← Json.required? Json.string? name)
        (← Json.required? (fun j => (j.name? s).bind ScalarClass.ofName?) arithmetic)
    | _ => none
  | some ("record", some v) => v.1.string?.map .record
  | some ("pointer", some v) =>
    match v.1.content? s ["pointee", "checked"] with
    | some [some pointee, checked] => do
      return .pointer (← ofJson? s pointee.1)
        (← Json.optional? (fun j => (j.name? s).bind CheckedForm.ofName?) checked)
    | _ => none
  | some ("array", some v) =>
    match v.1.content? s ["element", "size"] with
    | some [some element, size] => do
      return .array (← ofJson? s element.1) (← Json.optional? Json.longWord? size)
    | _ => none
  | some ("function", some v) => (signatureOfJson? s v.1).map CType.ofSignature
  | _ => none
termination_by sizeOf j
decreasing_by
  all_goals first
    | exact v.2
    | exact Nat.lt_trans pointee.2 v.2
    | exact Nat.lt_trans element.2 v.2

/-- Reads the signature of a function. -/
def signatureOfJson? (s : Json.Strictness) (j : Json) : Option Signature :=
  match j.record? ["ret", "params", "variadic"] with
  | some [some ret, some params, variadic] => do
    let ret ← ofJson? s ret.1
    let items ← params.1.items?
    let params ← items.mapM fun p => ofJson? s p.1
    return { ret, params, variadic := ← Json.withDefault? false Json.bool? variadic }
  | _ => none
termination_by sizeOf j
decreasing_by
  all_goals first
    | exact ret.2
    | exact Nat.lt_trans p.2 params.2

end

end CType

namespace Signature

def toJson (sig : Signature) : Json :=
  .object [("ret", sig.ret.toJson), ("params", .list CType.toJson sig.params),
    ("variadic", .bool sig.variadic)]

def ofJson? (s : Json.Strictness) (j : Json) : Option Signature := CType.signatureOfJson? s j

end Signature

end PointerKinds
