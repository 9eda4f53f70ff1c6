/-
The written form of a store.

A dump lists the constraints in force, by number, with their reasons, and the kind of
every atom under its spelled name.  The names are sorted as text, so the tenth atom
comes before the second.
-/
import PointerKinds.Store.Basic

namespace PointerKinds

/-- What is written out about a store. -/
structure Dump where
  /-- The text and the reason of each constraint in force. -/
  constraints : List (String × String)
  /-- The kind of each atom, by name. -/
  environment : SortedMap String Kind
deriving DecidableEq

/-- What is written out about a store. -/
def Store.dump (s : Store) : Dump where
  constraints := s.active.filterMap fun id =>
    (s.constraint? id).map fun c => (c.formula.text, c.why.reason)
  environment := .ofList (s.env.entries.map fun e => ((Operand.atom e.1).text, e.2))

end PointerKinds
