/-
Declared variables and functions, with an atom for every pointer level.

The variable of an object has one level for every pointer or array level of its type,
outermost first, and the text of what is left of the type as its base.  If the base is
a function type, the variable also has the variable of that function as its target.
The variable of a function has one for its result and one for each parameter.

Variables are numbered in the order of their creation, parts before wholes, and a
variable carries its parts with it, so everything below is recursion on the tree.
-/
import PointerKinds.CType.Basic
import PointerKinds.Store.Basic

namespace PointerKinds

/-- The number of a variable. -/
abbrev VariableId := Nat

/-- How one level of an object was declared. -/
inductive LevelShape where
  | pointer
  | sizedArray (size : Nat)
  | unsizedArray
deriving DecidableEq

/-- One pointer or array level. -/
structure Level where
  key : AtomKey
  shape : LevelShape
deriving DecidableEq

/-- What is known about an object, its target aside. -/
structure Object where
  id : VariableId
  name : String
  /-- The levels, outermost first. -/
  levels : List Level
  /-- The text of the type without its levels. -/
  base : String
deriving DecidableEq

/-- What is known about a function, its result and parameters aside. -/
structure FunctionHead where
  id : VariableId
  name : String
  /-- What declarations of the function are filed under; empty for the target of a
  pointer. -/
  key : String
  paramNames : List String
  hasBody : Bool
  variadic : Bool
deriving DecidableEq

/-- A variable with all its parts. -/
inductive Variable where
  /-- An object whose levels end in data. -/
  | object (object : Object)
  /-- An object whose levels end in a function. -/
  | code (object : Object) (target : Variable)
  | function (head : FunctionHead) (ret : Variable) (params : List Variable)

namespace Object

/-- The atoms of the levels, outermost first. -/
def atoms (o : Object) : List AtomKey := o.levels.map (·.key)

/-- How many levels there are. -/
def depth (o : Object) : Nat := o.levels.length

/-- The shapes of the levels, outermost first. -/
def shapes (o : Object) : List LevelShape := o.levels.map (·.shape)

/-- The atom of the outermost level. -/
def outer? (o : Object) : Option AtomKey := o.atoms.head?

end Object

namespace Variable

def id : Variable → VariableId
  | object o => o.id
  | code o _ => o.id
  | function h _ _ => h.id

def name : Variable → String
  | object o => o.name
  | code o _ => o.name
  | function h _ _ => h.name

def isFunction : Variable → Bool
  | function .. => true
  | _ => false

/-- The object, unless the variable is a function. -/
def object? : Variable → Option Object
  | object o => some o
  | code o _ => some o
  | function .. => none

/-- The parameters of a function. -/
def params : Variable → List Variable
  | function _ _ params => params
  | _ => []

/-! ### Atoms -/

mutual

/-- Every atom of a variable and its parts. -/
def atoms : Variable → List AtomKey
  | object o => o.atoms
  | code o target => o.atoms ++ target.atoms
  | function _ ret params => ret.atoms ++ atomsOfAll params

/-- Every atom of several variables and their parts. -/
def atomsOfAll : List Variable → List AtomKey
  | [] => []
  | v :: vs => v.atoms ++ atomsOfAll vs

end

mutual

/-- The outermost atom of an object; of a function, those of its result and parameters. -/
def outerAtoms : Variable → List AtomKey
  | object o => o.outer?.toList
  | code o _ => o.outer?.toList
  | function _ ret params => ret.outerAtoms ++ outerAtomsOfAll params

/-- The outermost atoms of several variables. -/
def outerAtomsOfAll : List Variable → List AtomKey
  | [] => []
  | v :: vs => v.outerAtoms ++ outerAtomsOfAll vs

end

/-! ### Shape -/

/-- Whether two objects have the same depth and base and, if that is asked for, levels
declared alike. -/
def sameLevels (strict : Bool) (a b : Object) : Bool :=
  a.depth == b.depth && a.base == b.base && (!strict || a.shapes == b.shapes)

mutual

/-- Whether two variables are structurally equal. -/
def sameShape (strict : Bool) : Variable → Variable → Bool
  | object a, object b => sameLevels strict a b
  | code a f, code b g => sameLevels strict a b && sameShape strict f g
  | function _ r ps, function _ r' ps' => sameShape strict r r' && sameShapes strict ps ps'
  | _, _ => false

/-- The same for lists of variables. -/
def sameShapes (strict : Bool) : List Variable → List Variable → Bool
  | [], [] => true
  | v :: vs, w :: ws => sameShape strict v w && sameShapes strict vs ws
  | _, _ => false

end

end Variable

end PointerKinds
