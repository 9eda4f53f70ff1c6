/-
What can go wrong.

A fault is a breach of the rules by the caller, or a number that has outgrown its
space; there is no going on after it.  An error is an answer like any other: the caller
is told, and may go on.
-/
import PointerKinds.Constraint.Formula

namespace PointerKinds

/-- A breach after which nothing more is answered. -/
inductive Fault where
  /-- A unit was entered while another was open. -/
  | unitOpen
  /-- A unit was left though none was open. -/
  | unitNotOpen
  /-- A node was registered though no unit was open. -/
  | nodeOutsideUnit
  /-- A number has outgrown its space. -/
  | overflow
deriving DecidableEq

/-- What a reader is told. -/
def Fault.message : Fault → String
  | unitOpen => "entered a compilation unit while another is open"
  | unitNotOpen => "exited a compilation unit that was never entered"
  | nodeOutsideUnit => "AST nodes can only be registered inside a compilation unit"
  | overflow => "attempt to add with overflow"

/-- Why a recording could not be replayed. -/
inductive ReplayError where
  /-- The event with this index uses a node that no declaration has introduced. -/
  | undeclared (index : Nat) (file : String) (node : Nat)
  /-- There is no recording of the file. -/
  | noRecording (file : String)
deriving DecidableEq

/-- What a reader is told, from the outside in. -/
def ReplayError.message : ReplayError → String
  | undeclared index file node =>
    "event " ++ toString index ++ " of " ++ file ++ ": node " ++ toString node ++ " used in " ++
      file ++ " before it was declared"
  | noRecording file => "no recording for " ++ file

/-- Why a session refused a request. -/
inductive SessionError where
  | alreadyBuilt
  | notBuilt
  | unknownAtom (key : AtomKey)
  | replay (file : String) (error : ReplayError)
  /-- The constraints could not be written out. -/
  | dump
deriving DecidableEq

/-- What a reader is told, where that is for the session to say. -/
def SessionError.message? : SessionError → Option String
  | alreadyBuilt => some "constraints have already been built for this session"
  | notBuilt => some "constraints have not been built yet"
  | unknownAtom key => some ("constraint key " ++ (Operand.atom key).text ++ " is not registered")
  | replay file error => some ("front end failed on " ++ file ++ ": " ++ error.message)
  | dump => none

end PointerKinds
