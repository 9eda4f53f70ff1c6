/-
The JSON form of recordings.

An event and a declaration name their kind in a field among the others; a declaration
may also give the number of the kind.  An event may be written as an array with its name
in front.  Choices inside events are read leniently.  Fields that no form knows are ignored,
and those that may be left out are always written.

In the text of a recording every event must be readable whole, the fields that are
ignored too; between the events, a field that is ignored need only be well-formed.
-/
import PointerKinds.Recording
import PointerKinds.Form.Basic
import PointerKinds.Form.Bounds
import PointerKinds.Form.CType
import PointerKinds.Json.Reader

namespace PointerKinds

/-! ### Declarations -/

namespace ParamDecl

def toJson (p : ParamDecl) : Json :=
  .object [("name", .string p.name), ("location", p.location.toJson)]

def ofJson? (j : Json) : Option ParamDecl :=
  match j.record? ["name", "location"] with
  | some [name, location] => do
    return ⟨← Json.required? Json.string? name, ← Json.required? Location.ofJson? location⟩
  | _ => none

end ParamDecl

namespace DeclKind

/-- The fields that tell what is declared. -/
def fields : DeclKind → List (String × Json)
  | global => [("kind", .string "global")]
  | «local» => [("kind", .string "local")]
  | field record => [("kind", .string "field"), ("record", .string record)]
  | function isDefinition isStatic params =>
    [("kind", .string "function"), ("is_definition", .bool isDefinition),
      ("is_static", .bool isStatic), ("params", .list ParamDecl.toJson params)]

/-- The name of a kind, which may be given by its number. -/
def nameOf? : Json → Option String
  | .string s => some s
  | .int i => if 0 ≤ i then ["global", "local", "field", "function"][i.toNat]? else none
  | _ => none

/-- Reads what is declared from among the fields of a declaration. -/
def ofFields? (j : Json) : Option DeclKind := do
  match ← Json.required? nameOf? (← j.field? "kind") with
  | "global" => return .global
  | "local" => return .local
  | "field" => return .field (← Json.required? Json.string? (← j.field? "record"))
  | "function" =>
    return .function (← Json.required? Json.bool? (← j.field? "is_definition"))
      (← Json.withDefault? false Json.bool? (← j.field? "is_static"))
      (← Json.withDefault? [] (Json.list? ParamDecl.ofJson?) (← j.field? "params"))
  | _ => none

end DeclKind

namespace Decl

def toJson (d : Decl) : Json :=
  .object ([("name", .string d.name), ("location", d.location.toJson), ("ty", d.type.toJson)] ++
    d.kind.fields)

def ofJson? (s : Json.Strictness) (j : Json) : Option Decl :=
  if j.isObject then do
    return {
      name := ← Json.required? Json.string? (← j.field? "name")
      location := ← Json.required? Location.ofJson? (← j.field? "location")
      type := ← Json.required? (CType.ofJson? s) (← j.field? "ty")
      kind := ← DeclKind.ofFields? j }
  else none

end Decl

/-! ### Events -/

namespace Event

def toJson : Event → Json
  | declare node d => .object [("event", .string "declare"), ("node", .nat node), ("decl", d.toJson)]
  | assign target source location =>
    .object [("event", .string "assign"), ("lhs", .nat target), ("rhs", .nat source),
      ("location", .option Location.toJson location)]
  | cast target targetType source sourceType location =>
    .object [("event", .string "cast"), ("dst", .nat target), ("dst_type", targetType.toJson),
      ("src", .nat source), ("src_type", sourceType.toJson),
      ("location", .option Location.toJson location)]
  | call callee signature args result allocSize location =>
    .object [("event", .string "call"), ("callee", .string callee),
      ("signature", .option Signature.toJson signature),
      ("args", .list (.option .nat) args), ("result", .option .nat result),
      ("alloc_size", .option BoundsExpr.toJson allocSize), ("location", location.toJson)]
  | wild node why =>
    .object [("event", .string "wild"), ("node", .nat node), ("reason", .string why.reason),
      ("location", .option Location.toJson why.location)]
  | bounds node e =>
    .object [("event", .string "bounds"), ("node", .nat node), ("expr", e.toJson)]

/-- Reads the fields of an event. -/
def ofFields? (j : Json) : String → Option Event
  | "declare" =>
    match j.record? ["node", "decl"] with
    | some [node, d] => do
      return .declare (← Json.required? Json.longWord? node)
        (← Json.required? (Decl.ofJson? .lenient) d)
    | _ => none
  | "assign" =>
    match j.record? ["lhs", "rhs", "location"] with
    | some [target, source, location] => do
      return .assign (← Json.required? Json.longWord? target) (← Json.required? Json.longWord? source)
        (← Json.optional? Location.ofJson? location)
    | _ => none
  | "cast" =>
    match j.record? ["dst", "dst_type", "src", "src_type", "location"] with
    | some [target, targetType, source, sourceType, location] => do
      return .cast (← Json.required? Json.longWord? target)
        (← Json.required? (CType.ofJson? .lenient) targetType)
        (← Json.required? Json.longWord? source)
        (← Json.required? (CType.ofJson? .lenient) sourceType)
        (← Json.optional? Location.ofJson? location)
    | _ => none
  | "call" =>
    match j.record? ["callee", "signature", "args", "result", "alloc_size", "location"] with
    | some [callee, signature, args, result, allocSize, location] => do
      return .call (← Json.required? Json.string? callee)
        (← Json.optional? (Signature.ofJson? .lenient) signature)
        (← Json.withDefault? [] (Json.list? (Json.nullable? Json.longWord?)) args)
        (← Json.optional? Json.longWord? result)
        (← Json.optional? (BoundsExpr.ofJson? .lenient) allocSize)
        (← Json.required? Location.ofJson? location)
    | _ => none
  | "wild" =>
    match j.record? ["node", "reason", "location"] with
    | some [node, reason, location] => do
      return .wild (← Json.required? Json.longWord? node)
        ⟨← Json.required? Json.string? reason, ← Json.optional? Location.ofJson? location⟩
    | _ => none
  | "bounds" =>
    match j.record? ["node", "expr"] with
    | some [node, e] => do
      return .bounds (← Json.required? Json.longWord? node)
        (← Json.required? (BoundsExpr.ofJson? .lenient) e)
    | _ => none
  | _ => none

def ofJson? (j : Json) : Option Event :=
  match j with
  | .array (.string name :: rest) => ofFields? (.array rest) name
  | .object _ => do ofFields? j (← Json.required? Json.string? (← j.field? "event"))
  | _ => none

end Event

/-! ### Recordings -/

namespace RecordedUnit

def toJson (u : RecordedUnit) : Json :=
  .object [("file", .string u.file), ("events", .list Event.toJson u.events)]

/-- Reads a unit, and its events by the given rule. -/
def ofJsonWith? (event? : Json → Option Event) (j : Json) : Option RecordedUnit :=
  match j.record? ["file", "events"] with
  | some [file, events] => do
    return ⟨← Json.required? Json.string? file, ← Json.withDefault? [] (Json.list? event?) events⟩
  | _ => none

end RecordedUnit

namespace Recording

def toJson (r : Recording) : Json := .object [("units", .list RecordedUnit.toJson r.units)]

/-- Reads a recording, and its events by the given rule. -/
def ofJsonWith? (event? : Json → Option Event) (j : Json) : Option Recording :=
  match j.record? ["units"] with
  | some [units] =>
    (Json.required? (Json.list? (RecordedUnit.ofJsonWith? event?)) units).map fun units => ⟨units⟩
  | _ => none

def ofJson? (j : Json) : Option Recording := ofJsonWith? Event.ofJson? j

/-- How many arrays and objects are open around an event: the recording, its units, the
unit and its events. -/
def eventDepth : Nat := 4

/-- Reads an event of a text. -/
def eventOfText? (j : Json) : Option Event :=
  if j.isReadable (Json.maxDepth - eventDepth) then Event.ofJson? j else none

/-- Reads the text of a recording. -/
def ofText? (text : String) : Option Recording :=
  (Json.readShallow? text).bind (ofJsonWith? eventOfText?)

end Recording

end PointerKinds
