/-
The solved type of an object, as it is written in checked C.
-/
import PointerKinds.Variable.Basic

namespace PointerKinds

namespace Object

/-- The kinds found for the levels, outermost first. -/
def solution (o : Object) (env : AtomKey → Kind) : List Kind := o.atoms.map env

/-- Whether some level is unchecked. -/
def isWild (o : Object) (env : AtomKey → Kind) : Bool := (o.solution env).contains .wild

/-- Wraps one solved level around the text of what it leads to.  Arrays of constant size
keep their size; every other level becomes a pointer type. -/
def renderLevel (inner : String) : LevelShape → Kind → String
  | .sizedArray n, .ntArr => inner ++ " _Nt_checked[" ++ toString n ++ "]"
  | .sizedArray n, .wild => inner ++ " [" ++ toString n ++ "]"
  | .sizedArray n, _ => inner ++ " _Checked[" ++ toString n ++ "]"
  | _, .ptr => "_Ptr<" ++ inner ++ ">"
  | _, .arr => "_Array_ptr<" ++ inner ++ ">"
  | _, .ntArr => "_Nt_array_ptr<" ++ inner ++ ">"
  | _, .wild => inner ++ " *"

/-- The solved type of the object. -/
def render (o : Object) (env : AtomKey → Kind) : String :=
  o.levels.foldr (fun level inner => renderLevel inner level.shape (env level.key)) o.base

end Object

/-- Whether some atom of a variable or its parts is unchecked. -/
def Variable.isWild (v : Variable) (env : AtomKey → Kind) : Bool := v.atoms.any fun key => env key = .wild

end PointerKinds
