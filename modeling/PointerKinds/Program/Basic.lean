/-
The index of a whole program.

Units are visited one after the other.  While a unit is open, nodes of it can be tied to
source locations; what is declared at a location can then be found through the node.
Locations outlive the unit, and so do the tables of functions and globals, which are
filled while units are visited and related when the program is linked.
-/
import PointerKinds.Bounds
import PointerKinds.Error
import PointerKinds.Options
import PointerKinds.RootCauses.Basic
import PointerKinds.Variable.System

namespace PointerKinds

/-- A handle for a piece of a unit, of no meaning outside it. -/
abbrev NodeId := Nat

/-- Variables by number. -/
abbrev VariableSet := SortedMap VariableId Variable

/-- Everything known about a program. -/
structure Program where
  options : Options := {}
  system : System := {}
  /-- What is declared at a location. -/
  declared : SortedMap Location VariableSet := ∅
  /-- Where an atom was first declared. -/
  atomLocations : SortedMap AtomKey Location := ∅
  /-- The records that fields belong to. -/
  fieldOwner : SortedMap VariableId String := ∅
  /-- The declarations of each global, globals in the order of their first one. -/
  globals : List (String × VariableSet) := []
  /-- Functions declared without a body, by key. -/
  declarations : SortedMap String Variable := ∅
  /-- Functions with a body, by key. -/
  definitions : SortedMap String Variable := ∅
  /-- Functions called before they were declared, by name. -/
  onDemand : SortedMap String Variable := ∅
  /-- Whether each function has a body somewhere. -/
  externs : SortedMap String Bool := ∅
  bounds : BoundsTable := (∅ : SortedMap AtomKey (SortedSet Bounds))
  rootCauses : RootCauses := {}
  /-- The files of the units visited. -/
  files : SortedSet String := ∅
  /-- The nodes of the open unit, if one is open. -/
  unit : Option (SortedMap NodeId Location) := none

namespace Program

/-- The store of the program. -/
def store (p : Program) : Store := p.system.store

/-- Replaces the store. -/
def withStore (p : Program) (s : Store) : Program := { p with system := { p.system with store := s } }

/-! ### Units -/

/-- Opens a unit.  There must be none open. -/
def enter (p : Program) (file : String) : Except Fault Program :=
  match p.unit with
  | some _ => .error .unitOpen
  | none => .ok { p with unit := some ∅, files := p.files.insert file }

/-- Closes the open unit and forgets its nodes. -/
def exit (p : Program) : Except Fault Program :=
  match p.unit with
  | some _ => .ok { p with unit := none }
  | none => .error .unitNotOpen

/-- Ties a node of the open unit to a location. -/
def register (p : Program) (node : NodeId) (location : Location) : Except Fault Program :=
  match p.unit with
  | some nodes => .ok { p with unit := some (nodes.insert node location) }
  | none => .error .nodeOutsideUnit

/-- The location that a node is tied to. -/
def locationOfNode? (p : Program) (node : NodeId) : Option Location :=
  p.unit.bind fun nodes => nodes.get? node

/-! ### Variables by location -/

/-- The first variable declared at a location. -/
def variableAt? (p : Program) (location : Location) : Option Variable :=
  (p.declared.get? location).bind fun vs => vs.values.head?

/-- The first variable declared at a node's location. -/
def variableOfNode? (p : Program) (node : NodeId) : Option Variable :=
  (p.locationOfNode? node).bind p.variableAt?

/-- Notes where the atoms of a variable were declared; a place already noted stands. -/
def locateAtoms (p : Program) (v : Variable) (location : Location) : Program :=
  { p with
    atomLocations := v.atoms.foldl (fun m key => m.insertNew key location) p.atomLocations }

/-- Files a variable and its atoms under a location. -/
def index (p : Program) (v : Variable) (location : Location) : Program :=
  let vs := p.declared.getD location ∅
  { p with declared := p.declared.insert location (vs.insert v.id v) }.locateAtoms v location

/-! ### Functions by name -/

/-- The result of the allocators of the standard library is typed by its use. -/
def isAllocator (name : String) : Bool := ["malloc", "calloc", "realloc"].contains name

/-- Functions of the standard library that are trusted without a body. -/
def isTrusted (name : String) : Bool := name == "free" || isAllocator name

/-- What a function is filed under.  A static function belongs to its file. -/
def functionKey (name file : String) (isStatic : Bool) : String :=
  if isStatic then file ++ "::" ++ name else name

/-- The function filed under a key, the one with a body first. -/
def functionAt? (p : Program) (key : String) : Option Variable :=
  (p.definitions.get? key).or (p.declarations.get? key)

/-- The function that a name means in a file: a static one of the file, or a global one. -/
def lookup? (p : Program) (name file : String) : Option Variable :=
  (p.functionAt? (functionKey name file true)).or (p.functionAt? name)

end Program

end PointerKinds
