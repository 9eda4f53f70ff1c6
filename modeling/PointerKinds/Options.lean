/-
What can be configured about a session.

Files may be restricted to a directory.  A file is under a directory if the components
of the directory's path are the first components of its own.  Repeated and trailing
slashes do not count, nor does a dot, except one that starts a relative path.
-/

namespace PointerKinds

/-- The configuration of a session. -/
structure Options where
  verbose : Bool := false
  /-- Write the constraints out after solving. -/
  dumpIntermediate : Bool := false
  /-- Where they are written. -/
  dumpPath : String := "constraint_output.json"
  /-- Log statistics after solving. -/
  dumpStats : Bool := false
  /-- Arguments beyond the parameters of a variadic function are fine. -/
  handleVarargs : Bool := false
  /-- The results of allocators are unchecked. -/
  allocUnsafe : Bool := false
  /-- Functions without a body are unchecked. -/
  externUnsafe : Bool := false
  /-- The directory whose files may be changed; without one, all may. -/
  baseDir : Option String := none
  /-- How many notes a diagnostic may have. -/
  maxNotes : Nat := 3
deriving DecidableEq

/-! ### Paths -/

namespace Path

/-- The pieces of a path between slashes. -/
def pieces : List Char → List (List Char)
  | [] => [[]]
  | c :: cs =>
    if c = '/' then [] :: pieces cs
    else
      match pieces cs with
      | p :: ps => (c :: p) :: ps
      | [] => [[c]]

/-- The components of a path.  An absolute path starts with the root, spelled by a slash,
and a relative one may start with a dot. -/
def components (path : String) : List (List Char) :=
  let ps := pieces path.toList
  let plain := ps.filter fun p => p != [] && p != ['.']
  if path.toList.head? = some '/' then ['/'] :: plain
  else if ps.head? = some ['.'] then ['.'] :: plain
  else plain

/-- Whether a path is a directory's or lies under it. -/
def isUnder (dir path : String) : Bool := (components dir).isPrefixOf (components path)

end Path

/-- Whether declarations in a file may be changed. -/
def Options.isWritable (o : Options) (file : String) : Bool :=
  match o.baseDir with
  | some dir => Path.isUnder dir file
  | none => true

end PointerKinds
