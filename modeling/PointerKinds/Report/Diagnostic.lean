/-
Diagnostics for unchecked pointers.

The root of every group is an error at its declaration, with a note at the place that
forced it.  Every other unchecked atom is a warning, with notes at the root causes of
its group.  Atoms declared outside the visited files are left out.
-/
import PointerKinds.Error
import PointerKinds.RootCauses.Basic
import PointerKinds.SortedSet

namespace PointerKinds

/-! ### Ranges -/

/-- A place in a file, counting from zero. -/
structure Position where
  line : Nat
  character : Nat
deriving DecidableEq

/-- A stretch of a line. -/
structure SourceRange where
  start : Position
  stop : Position
deriving DecidableEq

namespace SourceRange

/-- How wide a declaration is taken to be if its end is not known. -/
def defaultWidth : Nat := 4

/-- Positions are 32-bit numbers. -/
def positionLimit : Nat := 4294967296

/-- The stretch that starts at a location. -/
def ofLocation (l : Location) : SourceRange :=
  let stop :=
    match l.endCol with
    | some c => if 0 < c then c else l.col + defaultWidth
    | none => l.col + defaultWidth
  ⟨⟨l.line - 1, l.col⟩, ⟨l.line - 1, stop⟩⟩

/-- Whether the end of the stretch is in the space of positions. -/
def fits (r : SourceRange) : Bool := r.stop.character < positionLimit

/-- The stretch that starts at a location, if there is one. -/
def ofLocation? (l : Location) : Except Fault SourceRange :=
  if (ofLocation l).fits then .ok (ofLocation l) else .error .overflow

end SourceRange

/-! ### Diagnostics -/

/-- A remark about another place. -/
structure Note where
  file : String
  range : SourceRange
  message : String
deriving DecidableEq

/-- Whether a diagnostic is about a root cause or about one of its consequences. -/
inductive Severity where
  | rootCause
  | consequence
deriving DecidableEq

/-- A remark about an unchecked atom. -/
structure Diagnostic where
  key : AtomKey
  range : SourceRange
  severity : Severity
  message : String
  notes : List Note
deriving DecidableEq

/-- The diagnostics of each file. -/
abbrev Diagnostics := SortedMap String (List Diagnostic)

/-- What diagnostics are made from. -/
structure WildReport where
  rootCauses : RootCauses
  atomLocations : SortedMap AtomKey Location
  files : SortedSet String

namespace WildReport

/-- Where an atom is declared, if that is in a visited file. -/
def locationIn? (w : WildReport) (key : AtomKey) : Option Location :=
  (w.atomLocations.get? key).filter fun l => w.files.contains l.file

/-- The note at the place that forced a root. -/
def rootNotes (why : Explanation) : List Note :=
  (why.location.filter (·.isValid)).toList.map fun l =>
    ⟨l.file, .ofLocation l, "Go here to know the root cause for this."⟩

/-- The diagnostic of a root, and the file it belongs to. -/
def rootDiagnostic (key : AtomKey) (why : Explanation) (l : Location) : String × Diagnostic :=
  (l.file, ⟨key, .ofLocation l, .rootCause, "Pointer is wild because of:" ++ why.reason,
    rootNotes why⟩)

/-- A note for every root cause of an atom's group whose place is known. -/
def causeNotes (w : WildReport) (key : AtomKey) : List Note :=
  (w.rootCauses.causes key).filterMap fun (cause, why) =>
    (w.atomLocations.get? cause).map fun l => ⟨l.file, .ofLocation l, why.reason⟩

/-- The diagnostic of an atom that is not a root, and the file it belongs to. -/
def consequenceDiagnostic (w : WildReport) (key : AtomKey) (l : Location) : String × Diagnostic :=
  (l.file, ⟨key, .ofLocation l, .consequence,
    "Pointer is wild because it transitively depends on other pointer(s)", w.causeNotes key⟩)

/-- All diagnostics with all their notes: roots first, each part in the order of keys. -/
def diagnostics (w : WildReport) : List (String × Diagnostic) :=
  (w.rootCauses.roots.filterMap fun (key, why) =>
    (w.locationIn? key).map (rootDiagnostic key why)) ++
  (w.rootCauses.nonRoots.filterMap fun key =>
    (w.locationIn? key).map (w.consequenceDiagnostic key))

end WildReport

namespace Diagnostic

/-- Marks the last note as standing for others too. -/
def markLast : List Note → List Note
  | [] => []
  | [n] => [{ n with message := n.message ++ " (others)" }]
  | n :: ns => n :: markLast ns

/-- Keeps a limited number of notes on a consequence. -/
def limitNotes (limit : Nat) (d : Diagnostic) : Diagnostic :=
  match d.severity with
  | .rootCause => d
  | .consequence =>
    if limit < d.notes.length then { d with notes := markLast (d.notes.take limit) } else d

/-- Whether all its stretches are in the space of positions. -/
def fits (d : Diagnostic) : Bool := d.range.fits && d.notes.all (·.range.fits)

end Diagnostic

namespace Diagnostics

/-- The diagnostics of a file. -/
def forFile (ds : Diagnostics) (file : String) : List Diagnostic := SortedMap.getD ds file []

/-- Adds a diagnostic to a file. -/
def add (ds : Diagnostics) (d : String × Diagnostic) : Diagnostics :=
  SortedMap.insert ds d.1 (forFile ds d.1 ++ [d.2])

/-- How many diagnostics there are. -/
def count (ds : Diagnostics) : Nat := (SortedMap.values ds).foldl (fun n d => n + d.length) 0

/-- Adds a diagnostic, with a limit on its notes, and counts it. -/
def enter (limit : Nat) (state : Diagnostics × Nat) (d : String × Diagnostic) : Diagnostics × Nat :=
  (add state.1 (d.1, d.2.limitNotes limit), state.2 + 1)

/-- Adds all diagnostics of a report, with a limit on their notes.  The second component is
how many were added. -/
def populate (ds : Diagnostics) (limit : Nat) (w : WildReport) : Except Fault (Diagnostics × Nat) :=
  let found := w.diagnostics
  if found.all fun d => d.2.fits then .ok (found.foldl (enter limit) (ds, 0))
  else .error .overflow

end Diagnostics

end PointerKinds
