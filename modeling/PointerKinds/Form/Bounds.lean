/-
The JSON forms of lengths and of expressions for them.

An expression is written as a choice; how freely, is up to whoever reads.
-/
import PointerKinds.Bounds
import PointerKinds.Json.Value

namespace PointerKinds

namespace BoundsKind

def name : BoundsKind → String
  | constant => "Constant"
  | field => "LocalField"
  | param => "LocalParam"
  | «local» => "LocalVar"
  | byteCount => "ByteCount"

def ofName? : String → Option BoundsKind
  | "Constant" => some constant
  | "LocalField" => some field
  | "LocalParam" => some param
  | "LocalVar" => some «local»
  | "ByteCount" => some byteCount
  | _ => none

end BoundsKind

namespace Bounds

/-- Reads a length that may be unusable.  The kind of an unusable length has a name of its
own, and its text does not matter. -/
def ofJson? (j : Json) : Option (Option Bounds) :=
  match j.record? ["kind", "expr"] with
  | some [kind, expr] => do
    let kind ← Json.required? (Json.name? .strict) kind
    let expr ← Json.required? Json.string? expr
    if kind = "Invalid" then return none
    else return some ⟨← BoundsKind.ofName? kind, expr⟩
  | _ => none

end Bounds

namespace BoundsExpr

def toJson : BoundsExpr → Json
  | literal n => .object [("literal", .nat n)]
  | sizeOf ty => .object [("size_of", .string ty)]
  | stringLiteral text => .object [("string_literal", .string text)]
  | global name => .object [("global", .string name)]
  | param name => .object [("param", .string name)]
  | «local» name => .object [("local", .string name)]
  | field record name =>
    .object [("field", .object [("record", .string record), ("name", .string name)])]
  | binary op lhs rhs =>
    .object [("binary", .object [("op", .string op), ("lhs", lhs.toJson), ("rhs", rhs.toJson)])]

def ofJson? (s : Json.Strictness) (j : Json) : Option BoundsExpr :=
  match j.choice? with
  | some ("literal", some v) => v.1.longWord?.map .literal
  | some ("size_of", some v) => v.1.string?.map .sizeOf
  | some ("string_literal", some v) => v.1.string?.map .stringLiteral
  | some ("global", some v) => v.1.string?.map .global
  | some ("param", some v) => v.1.string?.map .param
  | some ("local", some v) => v.1.string?.map .local
  | some ("field", some v) =>
    match v.1.content? s ["record", "name"] with
    | some [record, name] => do
      return .field (← Json.required? Json.string? record) (← Json.required? Json.string? name)
    | _ => none
  | some ("binary", some v) =>
    match v.1.content? s ["op", "lhs", "rhs"] with
    | some [op, some lhs, some rhs] => do
      return .binary (← Json.required? Json.string? op) (← ofJson? s lhs.1) (← ofJson? s rhs.1)
    | _ => none
  | _ => none
termination_by SizeOf.sizeOf j
decreasing_by
  all_goals first
    | exact Nat.lt_trans lhs.2 v.2
    | exact Nat.lt_trans rhs.2 v.2

end BoundsExpr

end PointerKinds
