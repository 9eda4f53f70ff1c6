/-
The JSON form of a configuration.

Every field may be left out.  In a text, fields that the form does not know need only be
well-formed.
-/
import PointerKinds.Options
import PointerKinds.Json.Reader

namespace PointerKinds

namespace Options

def toJson (o : Options) : Json :=
  .object [("verbose", .bool o.verbose), ("dump_intermediate", .bool o.dumpIntermediate),
    ("constraint_output_json", .string o.dumpPath), ("dump_stats", .bool o.dumpStats),
    ("handle_varargs", .bool o.handleVarargs), ("consider_alloc_unsafe", .bool o.allocUnsafe),
    ("extern_functions_unsafe", .bool o.externUnsafe), ("base_dir", .option .string o.baseDir),
    ("max_diagnostic_notes", .nat o.maxNotes)]

def ofJson? (j : Json) : Option Options :=
  let d : Options := {}
  match j.record? ["verbose", "dump_intermediate", "constraint_output_json", "dump_stats",
      "handle_varargs", "consider_alloc_unsafe", "extern_functions_unsafe", "base_dir",
      "max_diagnostic_notes"] with
  | some [verbose, dump, path, stats, varargs, alloc, extern', dir, notes] => do
    return {
      verbose := ← Json.withDefault? d.verbose Json.bool? verbose
      dumpIntermediate := ← Json.withDefault? d.dumpIntermediate Json.bool? dump
      dumpPath := ← Json.withDefault? d.dumpPath Json.string? path
      dumpStats := ← Json.withDefault? d.dumpStats Json.bool? stats
      handleVarargs := ← Json.withDefault? d.handleVarargs Json.bool? varargs
      allocUnsafe := ← Json.withDefault? d.allocUnsafe Json.bool? alloc
      externUnsafe := ← Json.withDefault? d.externUnsafe Json.bool? extern'
      baseDir := ← Json.optional? Json.string? dir
      maxNotes := ← Json.withDefault? d.maxNotes Json.longWord? notes }
  | _ => none

/-- Reads the text of a configuration. -/
def ofText? (text : String) : Option Options := (Json.readShallow? text).bind ofJson?

end Options

end PointerKinds
