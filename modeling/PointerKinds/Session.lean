/-
A session: one recording, analysed, solved and edited.

The program is built once, from the units of the recording in order.  After it has been
solved or edited, the diagnostics are made anew, so that they always speak of the
present state; a solution that could not be written out is the one exception.
-/
import PointerKinds.Program.Edit
import PointerKinds.Program.Link
import PointerKinds.Program.Replay
import PointerKinds.Report.Diagnostic
import PointerKinds.Variable.Render

namespace PointerKinds

/-- What diagnostics of a program are made from. -/
def Program.wildReport (p : Program) : WildReport where
  rootCauses := p.rootCauses
  atomLocations := p.atomLocations
  files := p.files

/-- A recording and what has been made of it. -/
structure Session where
  recording : Recording
  program : Program
  built : Bool := false
  diagnostics : Diagnostics := (∅ : SortedMap String (List Diagnostic))

namespace Session

/-- A session about to start. -/
def start (options : Options) (recording : Recording) : Session where
  recording := recording
  program := { options }

/-! ### Building -/

/-- Visits the units of files in order and stops at the first that cannot be replayed.
A unit is closed whether or not it could be. -/
def visitAll (r : Recording) (p : Program) :
    List String → Except Fault (Except SessionError Unit × Program)
  | [] => .ok (.ok (), p)
  | file :: files => do
    let p ← p.enter file
    let (p, stop) := p.visit r file
    match stop with
    | some (.fault f) => throw f
    | some (.error e) => return (.error (.replay file e), ← p.exit)
    | none => visitAll r (← p.exit) files

/-- Visits all units and links the program.  A session is built once. -/
def build (s : Session) : Except Fault (Except SessionError Unit × Session) :=
  if s.built then .ok (.error .alreadyBuilt, s)
  else do
    let (result, p) ← visitAll s.recording s.program s.recording.files
    match result with
    | .ok _ => return (.ok (), { s with program := p.link, built := true })
    | .error e => return (.error e, { s with program := p })

/-! ### Solving and edits -/

/-- Makes the diagnostics anew. -/
def refresh (s : Session) : Except Fault Session := do
  let (ds, _) ← Diagnostics.populate (∅ : SortedMap String (List Diagnostic)) s.program.options.maxNotes
    s.program.wildReport
  return { s with diagnostics := ds }

/-- Solves the program and makes the diagnostics anew.  If the constraints are to be
written out but cannot be, the solution stands and the diagnostics are left alone. -/
def solve (s : Session) (canDump : Bool) :
    Except Fault (Except SessionError Outcome × Session) :=
  if s.built then
    let (outcome, p) := s.program.solve
    let s := { s with program := p }
    if p.options.dumpIntermediate && !canDump then .ok (.error .dump, s)
    else do return (.ok outcome, ← s.refresh)
  else .ok (.error .notBuilt, s)

/-- Edits the program and makes the diagnostics anew. -/
def edit (s : Session) (f : Program → Except SessionError (Bool × Program)) :
    Except Fault (Except SessionError Bool × Session) :=
  if s.built then
    match f s.program with
    | .ok (changed, p) => do return (.ok changed, ← { s with program := p }.refresh)
    | .error e => .ok (.error e, s)
  else .ok (.error .notBuilt, s)

/-- Makes an atom checked again. -/
def makeNonWild (s : Session) (key : AtomKey) : Except Fault (Except SessionError Bool × Session) :=
  s.edit (·.makeNonWild key)

/-- Erases the reason of an atom's group, wherever it was given. -/
def invalidate (s : Session) (key : AtomKey) : Except Fault (Except SessionError Bool × Session) :=
  s.edit (·.invalidate key)

/-- Puts what was erased from an atom back in force. -/
def restore (s : Session) (key : AtomKey) : Except Fault (Except SessionError Bool × Session) :=
  s.edit (·.restore key)

/-! ### Reading -/

/-- The solved type of the first object declared at a location, if it has levels. -/
def solvedType? (env : AtomKey → Kind) (vs : VariableSet) : Option String :=
  match vs.values.findSome? (·.object?) with
  | some o => if o.depth = 0 then none else some (o.render env)
  | none => none

/-- The solved types of the declarations that may be changed, by location. -/
def solvedTypes (p : Program) : List (Location × String) :=
  p.declared.entries.filterMap fun (l, vs) =>
    if p.options.isWritable l.file then (solvedType? p.store.value vs).map (l, ·) else none

end Session

end PointerKinds
