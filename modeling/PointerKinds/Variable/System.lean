/-
A store together with the variables whose atoms it holds.

Declaring a variable allocates an atom for every level of its type.  An array of
constant size can never be unchecked and is at least a plain array; an array of unknown
size is at least a plain array.  A pointer already written as checked and a pointer to
characters only have preferences.
-/
import PointerKinds.Variable.Basic

namespace PointerKinds

/-- A store and the variables declared in it, by number. -/
structure System where
  store : Store := {}
  declared : List Variable := []

namespace System

/-- The variable with a number. -/
def find? (sys : System) (id : VariableId) : Option Variable := sys.declared[id]?

/-- Files a variable under the next number. -/
def push (sys : System) (make : VariableId → Variable) : Variable × System :=
  let v := make sys.declared.length
  (v, { sys with declared := sys.declared ++ [v] })

/-! ### Levels -/

/-- The shape of the outermost level of a type. -/
def shapeOf : CType → LevelShape
  | .array _ (some n) => .sizedArray n
  | .array _ none => .unsizedArray
  | _ => .pointer

/-- What a declaration says about the preferences of its outermost level. -/
def preferencesOf (ty : CType) : SoftPreferences where
  shouldBeArr := ty matches .pointer _ (some .array)
  shouldBeNtArr := ty matches .pointer _ (some .ntArray)
  ifArrThenNtArr := (ty.pointee?.map (·.isChar)).getD false

/-- What the shape of a level demands of its atom. -/
def imposeShape (s : Store) (key : AtomKey) (location : Option Location) : LevelShape → Store
  | .sizedArray _ =>
    ((s.forbid key .wild).addEq (.atom key) (.kind .arr) ⟨"Constant size array", location⟩).2
  | .unsizedArray => (s.addEq (.atom key) (.kind .arr) ⟨"Unsized array", location⟩).2
  | .pointer => s

/-- Allocates the atom of the outermost level of a type. -/
def newLevel (sys : System) (location : Option Location) (ty : CType) : Level × System :=
  let (key, s) := sys.store.newAtom
  let s := imposeShape s key location (shapeOf ty)
  (⟨key, shapeOf ty⟩, { sys with store := s.setSoft key (preferencesOf ty) })

/-! ### Declarations -/

/-- The name of a parameter that has none. -/
def defaultParamName (i : Nat) : String := "arg" ++ toString i

/-- The names of a function's parameters. -/
def paramNames (given : List String) (count : Nat) : List String :=
  (List.range count).map fun i => (given[i]?).getD (defaultParamName i)

mutual

/-- Declares a variable.  The levels are those already allocated further out; a function
type with none of them becomes a function if `bare` is set, and otherwise an object
without levels that has the function as its target. -/
def declareType (sys : System) (location : Option Location) (name : String) (bare : Bool)
    (levels : List Level) : CType → Variable × System
  | .pointer pointee checked =>
    let (level, sys) := sys.newLevel location (.pointer pointee checked)
    declareType sys location name false (levels ++ [level]) pointee
  | .array element size =>
    let (level, sys) := sys.newLevel location (.array element size)
    declareType sys location name false (levels ++ [level]) element
  | .function ret params variadic =>
    let (ret', sys) := declareType sys location (name ++ "$ret") true [] ret
    let (params', sys) := declareParams sys location (paramNames [] params.length) params
    let (target, sys) := sys.push fun id =>
      .function ⟨id, name, "", paramNames [] params.length, false, variadic⟩ ret' params'
    if bare then (target, sys)
    else sys.push fun id => .code ⟨id, name, levels, CType.text (.function ret params variadic)⟩ target
  | ty => sys.push fun id => .object ⟨id, name, levels, ty.text⟩

/-- Declares parameters under the given names. -/
def declareParams (sys : System) (location : Option Location) :
    List String → List CType → List Variable × System
  | name :: names, ty :: tys =>
    let (v, sys) := declareType sys location name true [] ty
    let (vs, sys) := declareParams sys location names tys
    (v :: vs, sys)
  | _, _ => ([], sys)

end

/-- Declares a variable: a function if its type is a function type, else an object. -/
def declare (sys : System) (name : String) (ty : CType) (location : Option Location) :
    Variable × System :=
  declareType sys location name true [] ty

/-- Declares an object. -/
def declareObject (sys : System) (name : String) (ty : CType) (location : Option Location) :
    Variable × System :=
  declareType sys location name false [] ty

/-- Declares a function under a key. -/
def declareFunction (sys : System) (name key : String) (sig : Signature) (given : List String)
    (hasBody : Bool) (location : Option Location) : Variable × System :=
  let names := paramNames given sig.params.length
  let (ret, sys) := declareType sys location (name ++ "$ret") true [] sig.ret
  let (params, sys) := declareParams sys location names sig.params
  sys.push fun id => .function ⟨id, name, key, names, hasBody, sig.variadic⟩ ret params

end System

end PointerKinds
