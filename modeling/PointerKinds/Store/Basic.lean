/-
The store of atoms and constraints.

Constraints are numbered in the order of their creation and interned: asking for a
formula that is there gives its number back.  Creating a constraint does not impose
it.  It is imposed by adding it, which makes it top-level and tells every atom it
mentions; an erased constraint stays top-level but is not in force, and can be
restored.

Beside them the store keeps the kind found for each atom so far, for each unchecked
atom the constraint that first made it so, and, when asked to, a record of every
upward move.

The tables are sorted lists, and constraints are found by position in a list, so that
a concrete store can be evaluated by the kernel as well as run.
-/
import PointerKinds.SortedMap
import PointerKinds.Constraint.Basic

namespace PointerKinds

/-- One upward move of an atom. -/
structure Move where
  key : AtomKey
  before : Kind
  after : Kind
deriving DecidableEq

/-- Atoms, constraints and what has been found out about the atoms. -/
structure Store where
  atoms : SortedMap AtomKey Atom := ∅
  /-- The kind of each atom. -/
  env : SortedMap AtomKey Kind := ∅
  /-- Every constraint created, by number. -/
  arena : List Constraint := []
  /-- The constraints that were added. -/
  topLevel : SortedSet ConstraintId := ∅
  /-- Those of them that are suspended. -/
  erased : SortedSet ConstraintId := ∅
  /-- The constraint that first made an atom unchecked. -/
  forcedBy : SortedMap AtomKey ConstraintId := ∅
  /-- Every key in use is below this one. -/
  nextKey : AtomKey := 0
  /-- The moves since the record was started or last read, if one is kept. -/
  trace : Option (List Move) := none
deriving DecidableEq

namespace Store

/-! ### Atoms -/

/-- Keys are 32-bit numbers, and the next key must be one too. -/
def keyLimit : Nat := 4294967296

/-- Whether the numbering of atoms has left the space of keys. -/
def isExhausted (s : Store) : Bool := keyLimit ≤ s.nextKey

/-- Registers an atom, as a checked pointer, unless it is registered. -/
def ensureAtom (s : Store) (key : AtomKey) : Store :=
  { s with
    atoms := s.atoms.insertNew key {}
    env := s.env.insertNew key .ptr
    nextKey := max s.nextKey (key + 1) }

/-- Registers an atom under a key not in use. -/
def newAtom (s : Store) : AtomKey × Store := (s.nextKey, s.ensureAtom s.nextKey)

/-- The kind of an atom; one that is not registered counts as a checked pointer. -/
def value (s : Store) (key : AtomKey) : Kind := s.env.getD key .ptr

/-- Changes what is recorded about an atom, if it is registered. -/
def modifyAtom (s : Store) (key : AtomKey) (f : Atom → Atom) : Store :=
  { s with atoms := s.atoms.modify key f }

/-- Bars an atom from a kind. -/
def forbid (s : Store) (key : AtomKey) (k : Kind) : Store := s.modifyAtom key (·.forbid k)

/-- Replaces the preferences of an atom. -/
def setSoft (s : Store) (key : AtomKey) (soft : SoftPreferences) : Store :=
  s.modifyAtom key ({ · with soft })

/-- Registers an atom and records a constraint in force that mentions it. -/
def attach (id : ConstraintId) (s : Store) (key : AtomKey) : Store :=
  (s.ensureAtom key).modifyAtom key (·.attach id)

/-! ### Creating constraints -/

/-- The number of the constraint with a formula. -/
def find? (s : Store) (f : Formula) : Option ConstraintId :=
  s.arena.findIdx? fun c => c.formula = f

/-- The number of a constraint, which is created if its formula is new.  A constraint
known without a reason takes the new one's explanation. -/
def intern (s : Store) (c : Constraint) : ConstraintId × Store :=
  match s.find? c.formula with
  | some id => (id, { s with arena := s.arena.modify id (·.explainedBy c) })
  | none => (s.arena.length, { s with arena := s.arena ++ [c] })

/-- Creates the equality of two operands. -/
def createEq (s : Store) (a b : Operand) (why : Explanation := {}) : ConstraintId × Store :=
  s.intern { formula := .equal a b, why }

/-- The constraint with a number. -/
def constraint? (s : Store) (id : ConstraintId) : Option Constraint := s.arena[id]?

/-- What the constraint with a number says. -/
def formula? (s : Store) (id : ConstraintId) : Option Formula := (s.constraint? id).map (·.formula)

/-- Creates the negation of a constraint. -/
def createNot? (s : Store) (body : ConstraintId) : Option (ConstraintId × Store) :=
  (s.formula? body).map fun f => s.intern { formula := .not f }

/-- Creates an implication between two constraints. -/
def createImplies? (s : Store) (premise conclusion : ConstraintId) : Option (ConstraintId × Store) :=
  (s.formula? premise).bind fun p => (s.formula? conclusion).map fun c =>
    s.intern { formula := .implies p c }

/-! ### Imposing constraints -/

/-- Whether adding a constraint would impose it: it exists, and was not added before. -/
def isAddable (s : Store) (id : ConstraintId) : Bool :=
  id < s.arena.length && !s.erased.contains id && !s.topLevel.contains id

/-- The filter that a formula stands for at top level: the negation of an equality
between an atom and a kind bars the atom from the kind. -/
def imposeFilter (s : Store) : Formula → Store
  | .not body =>
    match body.atomKind? with
    | some (key, k) => (s.ensureAtom key).forbid key k
    | none => s
  | _ => s

/-- Imposes a constraint and records it with every atom it mentions. -/
def add (s : Store) (id : ConstraintId) : Store :=
  if s.isAddable id then
    match s.formula? id with
    | some f =>
      let s := s.imposeFilter f
      let s := f.atoms.toList.foldl (attach id) s
      { s with topLevel := s.topLevel.insert id }
    | none => s
  else s

/-- Creates a constraint and imposes it. -/
def post (s : Store) (c : Constraint) : ConstraintId × Store :=
  let (id, s) := s.intern c
  (id, s.add id)

/-- Imposes the equality of two operands. -/
def addEq (s : Store) (a b : Operand) (why : Explanation := {}) : ConstraintId × Store :=
  s.post { formula := .equal a b, why }

/-- Makes an atom unchecked, and says why. -/
def addWild (s : Store) (key : AtomKey) (why : Explanation) : ConstraintId × Store :=
  s.addEq (.atom key) (.kind .wild) why

/-- Lets a kind flow from one atom to another: where the first has it, the second should. -/
def addFlow (s : Store) (source target : AtomKey) (k : Kind) : Store :=
  let premise := Formula.equal (.atom source) (.kind k)
  let conclusion := Formula.equal (.atom target) (.kind k)
  let (_, s) := s.intern { formula := premise }
  let (_, s) := s.intern { formula := conclusion }
  (s.post { formula := .implies premise conclusion }).2

/-! ### Reading -/

/-- The constraints in force, by number. -/
def active (s : Store) : List ConstraintId := s.topLevel.toList.filter fun id => !s.erased.contains id

/-- The constraints in force with what they say, by number. -/
def activeFormulas (s : Store) : List (ConstraintId × Formula) :=
  s.active.filterMap fun id => (s.formula? id).map (id, ·)

/-- The constraints that atoms know to be in force, with what they say. -/
def formulasAt (s : Store) (key : AtomKey) : List (ConstraintId × Formula) :=
  match s.atoms.get? key with
  | some a => a.active.toList.filterMap fun id => (s.formula? id).map (id, ·)
  | none => []

/-- Constraints are ordered by what they say: equalities by their operands, before
negations and implications, which go by the numbers of their parts. -/
def order (s : Store) : Formula → Formula → Ordering
  | .eq a b, .eq a' b' => (compare a a').then (compare b b')
  | .eq .., _ => .lt
  | .not _, .eq .. => .gt
  | .not f, .not f' => compare (s.find? f) (s.find? f')
  | .not _, .implies .. => .lt
  | .implies p c, .implies p' c' =>
    (compare (s.find? p) (s.find? p')).then (compare (s.find? c) (s.find? c'))
  | .implies .., _ => .gt

/-! ### The record of moves -/

/-- Starts a record of the moves to come. -/
def startTrace (s : Store) : Store := { s with trace := some [] }

/-- The moves recorded so far; none if no record is kept. -/
def recorded (s : Store) : List Move := s.trace.getD []

/-- Empties the record. -/
def clearTrace (s : Store) : Store := { s with trace := s.trace.map fun _ => [] }

end Store

end PointerKinds
