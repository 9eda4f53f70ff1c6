/-
The JSON form of statistics.
-/
import PointerKinds.Report.Statistics
import PointerKinds.Json.Printer

namespace PointerKinds

namespace KindCounts

def toJson (c : KindCounts) : Json :=
  .object [("ptr", .nat c.ptr), ("arr", .nat c.arr), ("nt_arr", .nat c.ntArr), ("wild", .nat c.wild)]

def ofJson? (j : Json) : Option KindCounts :=
  match j.record? ["ptr", "arr", "nt_arr", "wild"] with
  | some [ptr, arr, ntArr, wild] => do
    return ⟨← Json.required? Json.longWord? ptr, ← Json.required? Json.longWord? arr,
      ← Json.required? Json.longWord? ntArr, ← Json.required? Json.longWord? wild⟩
  | _ => none

end KindCounts

namespace Statistics

def toJson (s : Statistics) : Json :=
  .object [("files", .object (s.files.entries.map fun e => (e.1, e.2.toJson))),
    ("total", s.total.toJson), ("wild_roots", .nat s.roots)]

/-- Reads counts by file. -/
def filesOfJson? : Json → Option (SortedMap String KindCounts)
  | .object fields =>
    (fields.mapM fun (f : String × Json) => (KindCounts.ofJson? f.2).map fun c => (f.1, c)).map
      SortedMap.ofList
  | _ => none

def ofJson? (j : Json) : Option Statistics :=
  match j.record? ["files", "total", "wild_roots"] with
  | some [files, total, roots] => do
    return ⟨← Json.required? filesOfJson? files, ← Json.required? KindCounts.ofJson? total,
      ← Json.required? Json.longWord? roots⟩
  | _ => none

/-- What is written to a file. -/
def jsonText (s : Statistics) : String := s.toJson.pretty

end Statistics

end PointerKinds
