/-
Replaying a recording into a program.

The nodes of an event are resolved before anything is done about it, so an event that
cannot be replayed leaves the program as it was, and a unit stops at the first such
event.
-/
import PointerKinds.Program.Demand
import PointerKinds.Recording

namespace PointerKinds

/-- Why replaying stopped. -/
inductive Stop where
  | fault (fault : Fault)
  | error (error : ReplayError)
deriving DecidableEq

/-- Why one event could not be replayed. -/
inductive EventError where
  | fault (fault : Fault)
  /-- The event uses a node that no declaration has introduced. -/
  | undeclared (node : NodeId)
deriving DecidableEq

/-- The reason with its place in the unit. -/
def EventError.stop (file : String) (i : Nat) : EventError → Stop
  | fault f => .fault f
  | undeclared node => .error (.undeclared i file node)

namespace Program

/-- The variable of a node. -/
def resolve (p : Program) (node : NodeId) : Except EventError Variable :=
  match p.variableOfNode? node with
  | some v => .ok v
  | none => .error (.undeclared node)

/-- The variable of a node, if there is a node. -/
def resolveOption (p : Program) : Option NodeId → Except EventError (Option Variable)
  | some node => (p.resolve node).map some
  | none => .ok none

/-- The variables of several nodes. -/
def resolveAll (p : Program) : List (Option NodeId) → Except EventError (List (Option Variable))
  | [] => .ok []
  | node :: nodes => do
    let v ← p.resolveOption node
    let vs ← p.resolveAll nodes
    return v :: vs

/-- Replays one event. -/
def replayEvent (p : Program) : Event → Except EventError Program
  | .declare node d => ((p.declareNode node d).map (·.2)).mapError .fault
  | .assign target source location => do
    let target ← p.resolve target
    let source ← p.resolve source
    return p.assign target source location
  | .cast target targetType source sourceType location => do
    let target ← p.resolve target
    let source ← p.resolve source
    return p.cast targetType target sourceType source location
  | .call callee signature args result allocSize location => do
    let args ← p.resolveAll args
    let result ← p.resolveOption result
    return p.call { callee, signature, args, result, allocSize, location }
  | .wild node why => do
    let v ← p.resolve node
    return p.makeWild v why
  | .bounds node e => do
    let v ← p.resolve node
    return p.addBounds v e

/-- Replays events, the first of which has the given index. -/
def replayEvents (p : Program) (file : String) (i : Nat) : List Event → Program × Option Stop
  | [] => (p, none)
  | e :: es =>
    match p.replayEvent e with
    | .ok p => p.replayEvents file (i + 1) es
    | .error err => (p, some (err.stop file i))

/-- Replays the recording of a file into the open unit. -/
def visit (p : Program) (r : Recording) (file : String) : Program × Option Stop :=
  match r.unitOf? file with
  | some u => p.replayEvents file 0 u.events
  | none => (p, some (.error (.noRecording file)))

end Program

end PointerKinds
