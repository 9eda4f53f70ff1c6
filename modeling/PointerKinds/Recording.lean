/-
Recordings of a walk over a program's units.

Each unit is a file with the events met in it, in order: declarations, and uses of what
was declared, which refer to it by node.
-/
import PointerKinds.Program.Declare

namespace PointerKinds

/-- Something met in a unit. -/
inductive Event where
  | declare (node : NodeId) (decl : Decl)
  | assign (target source : NodeId) (location : Option Location)
  | cast (target : NodeId) (targetType : CType) (source : NodeId) (sourceType : CType)
      (location : Option Location)
  | call (callee : String) (signature : Option Signature) (args : List (Option NodeId))
      (result : Option NodeId) (allocSize : Option BoundsExpr) (location : Location)
  | wild (node : NodeId) (why : Explanation)
  | bounds (node : NodeId) (expr : BoundsExpr)

/-- What was met in one file. -/
structure RecordedUnit where
  file : String
  events : List Event := []

/-- What was met in a program. -/
structure Recording where
  units : List RecordedUnit := []

namespace Recording

/-- The files of the units, in order. -/
def files (r : Recording) : List String := r.units.map (·.file)

/-- The first unit of a file. -/
def unitOf? (r : Recording) (file : String) : Option RecordedUnit := r.units.find? (·.file == file)

end Recording

end PointerKinds
