/-
What a store should satisfy before it is solved.

Solving starts best from checked pointers, with every mentioned atom registered and no
equality asking for a kind that its atom's filter bars.  Each departure is an issue
with a text of its own; none keeps the store from being solved.
-/
import PointerKinds.Store.Basic

namespace PointerKinds

/-- A departure from what a store should satisfy before it is solved. -/
inductive SanityIssue where
  /-- An atom does not start as a checked pointer. -/
  | startsAbovePtr (key : AtomKey) (value : Kind)
  /-- An atom starts at a kind that its filter bars. -/
  | startsForbidden (key : AtomKey) (value : Kind)
  /-- A constraint in force mentions an atom that was never registered. -/
  | unregistered (key : AtomKey) (constraint : Formula)
  /-- A constraint in force asks for a kind that the atom's filter bars. -/
  | forbiddenDemand (key : AtomKey) (value : Kind) (constraint : Formula)
deriving DecidableEq

namespace SanityIssue

/-- What a reader is told. -/
def message : SanityIssue → String
  | startsAbovePtr key value => (Operand.atom key).text ++ " starts at " ++ value.name ++ " instead of PTR"
  | startsForbidden key value =>
    (Operand.atom key).text ++ " starts at " ++ value.name ++ ", which it may never take"
  | unregistered key f => f.text ++ " mentions " ++ (Operand.atom key).text ++ ", which was never registered"
  | forbiddenDemand key value f =>
    f.text ++ " requires " ++ (Operand.atom key).text ++ " to be " ++ value.name ++
      ", which it may never take"

end SanityIssue

namespace Store

/-- Whether a registered atom's filter bars a kind. -/
def forbids (s : Store) (key : AtomKey) (k : Kind) : Bool :=
  match s.atoms.get? key with
  | some a => !a.permits k
  | none => false

/-- What is wrong with the kind an atom has now. -/
def startIssues (s : Store) (key : AtomKey) (value : Kind) : List SanityIssue :=
  (if value = .ptr then [] else [.startsAbovePtr key value]) ++
  (if s.forbids key value then [.startsForbidden key value] else [])

/-- What is wrong with a constraint in force. -/
def demandIssues (s : Store) (f : Formula) : List SanityIssue :=
  ((f.atoms.toList.filter fun key => !s.atoms.contains key).map (.unregistered · f)) ++
  (match f.atomKind? with
    | some (key, k) => if s.forbids key k then [.forbiddenDemand key k f] else []
    | none => [])

/-- Every issue: atoms by key, then constraints by number. -/
def sanityIssues (s : Store) : List SanityIssue :=
  (s.env.entries.flatMap fun e => s.startIssues e.1 e.2) ++
  (s.activeFormulas.flatMap fun e => s.demandIssues e.2)

end Store

end PointerKinds
