/-
The JSON form of a dump.
-/
import PointerKinds.Store.Dump
import PointerKinds.Form.Basic
import PointerKinds.Json.Printer

namespace PointerKinds

namespace Dump

def toJson (d : Dump) : Json :=
  .object [
    ("constraints", .list (fun c => .object [("constraint", .string c.1), ("reason", .string c.2)])
      d.constraints),
    ("environment", .object (d.environment.entries.map fun e => (e.1, e.2.toJson)))]

/-- What is written to a file. -/
def text (d : Dump) : String := d.toJson.pretty

end Dump

end PointerKinds
