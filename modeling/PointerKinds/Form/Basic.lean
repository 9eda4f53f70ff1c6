/-
The JSON forms of kinds, locations and preferences.
-/
import PointerKinds.Constraint.Basic
import PointerKinds.Json.Value

namespace PointerKinds

namespace Kind

/-- A kind is written by name. -/
def toJson (k : Kind) : Json := .string k.name

def ofJson? (j : Json) : Option Kind := (j.name? .strict).bind ofName?

end Kind

namespace Location

/-- All fields of a location, the end column too if it is not known. -/
def toJson (l : Location) : Json :=
  .object [("file", .string l.file), ("line", .nat l.line), ("col", .nat l.col),
    ("end_col", .option .nat l.endCol)]

def ofJson? (j : Json) : Option Location :=
  match j.record? ["file", "line", "col", "end_col"] with
  | some [file, line, col, endCol] => do
    return {
      file := ← Json.required? Json.string? file
      line := ← Json.required? Json.word? line
      col := ← Json.required? Json.word? col
      endCol := ← Json.optional? Json.word? endCol }
  | _ => none

end Location

namespace SoftPreferences

def toJson (p : SoftPreferences) : Json :=
  .object [("should_be_arr", .bool p.shouldBeArr), ("should_be_nt_arr", .bool p.shouldBeNtArr),
    ("if_arr_then_nt_array", .bool p.ifArrThenNtArr)]

def ofJson? (j : Json) : Option SoftPreferences :=
  match j.record? ["should_be_arr", "should_be_nt_arr", "if_arr_then_nt_array"] with
  | some [arr, ntArr, ifArr] => do
    return {
      shouldBeArr := ← Json.required? Json.bool? arr
      shouldBeNtArr := ← Json.required? Json.bool? ntArr
      ifArrThenNtArr := ← Json.required? Json.bool? ifArr }
  | _ => none

end SoftPreferences

end PointerKinds
