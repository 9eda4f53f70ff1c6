/-
Solving a program, and edits of a solved one.

After every solution the unchecked atoms are grouped by root cause.  An edit works on
those groups: making one atom checked again solves its group anew, and invalidating a
reason erases it wherever it was given.
-/
import PointerKinds.Program.Basic
import PointerKinds.RootCauses.Provenance
import PointerKinds.Solver.Edit

namespace PointerKinds

namespace Program

/-- Groups the unchecked atoms anew. -/
def regroup (p : Program) : Program := { p with rootCauses := .ofStore p.store }

/-- Solves the program from the kinds it has. -/
def solve (p : Program) : Outcome × Program :=
  let (outcome, s) := p.store.solve
  (outcome, (p.withStore s).regroup)

/-- The group of an atom; one that is not unchecked is alone. -/
def regionOf (p : Program) (key : AtomKey) : List AtomKey :=
  ((p.rootCauses.find key).bind p.rootCauses.group).getD [key]

/-- Refuses keys that are not registered. -/
def ifKnown {α : Type} (p : Program) (key : AtomKey) (a : α) : Except SessionError α :=
  if p.store.atoms.contains key then .ok a else .error (.unknownAtom key)

/-- Makes an atom checked again.  The answer tells whether any atom is checked that was
not. -/
def makeNonWild (p : Program) (key : AtomKey) : Except SessionError (Bool × Program) :=
  p.ifKnown key <|
    let (converted, s) := p.store.makeNonWild key (p.regionOf key)
    (!converted.isEmpty, (p.withStore s).regroup)

/-- Erases the reason of an atom's group, wherever it was given.  The answer tells whether
any atom is checked that was not. -/
def invalidate (p : Program) (key : AtomKey) : Except SessionError (Bool × Program) :=
  p.ifKnown key <|
    match p.rootCauses.find key with
    | none => (false, p)
    | some root =>
      let reason := ((p.rootCauses.reason root).map (·.reason)).getD ""
      let s := (p.store.wildForcing root).foldl Store.erase p.store
      let (_, _, s) := s.eraseReason reason
      (p.rootCauses.keys.any fun k => s.value k ≠ .wild, (p.withStore s).regroup)

/-- Puts what was erased from an atom back in force and solves from scratch.  The answer
tells whether there was anything to put back. -/
def restore (p : Program) (key : AtomKey) : Except SessionError (Bool × Program) :=
  p.ifKnown key <|
    if (p.store.restorable key).isEmpty then (false, p)
    else (true, (p.withStore ((p.store.restore key).reset.solve).2).regroup)

end Program

end PointerKinds
