/-
Declarations.

A location is declared once; later declarations there mean the same variable.  A
function declared again under its key is the function already there, known at one more
location.  What is declared in a file that may not be changed is unchecked, unless it
is one of the trusted functions.
-/
import PointerKinds.Program.Basic
import PointerKinds.Variable.Relations

namespace PointerKinds

/-- The declaration of a parameter. -/
structure ParamDecl where
  name : String
  location : Location
deriving DecidableEq

/-- What is declared. -/
inductive DeclKind where
  | global
  | local
  | field (record : String)
  | function (isDefinition isStatic : Bool) (params : List ParamDecl)
deriving DecidableEq

/-- A declaration. -/
structure Decl where
  name : String
  location : Location
  type : CType
  kind : DeclKind
deriving DecidableEq

namespace Program

/-! ### Functions -/

/-- Files the parameters of a function under the locations of their declarations. -/
def indexParams (p : Program) (f : Variable) (params : List ParamDecl) : Program :=
  (params.zip f.params).foldl (fun p e => p.index e.2 e.1.location) p

/-- The signature of what is declared as a function.  Anything but a function type is the
type of the result. -/
def signatureOf (ty : CType) : Signature := ty.signature?.getD { ret := ty, params := [] }

/-- The function filed under a key, among those with or those without a body. -/
def knownFunction? (p : Program) (key : String) (isDefinition : Bool) : Option Variable :=
  if isDefinition then p.definitions.get? key else p.declarations.get? key

/-- Files a function under its key. -/
def fileFunction (p : Program) (key : String) (isDefinition : Bool) (f : Variable) : Program :=
  if isDefinition then { p with definitions := p.definitions.insert key f }
  else { p with declarations := p.declarations.insert key f }

/-- Declares a function, unless it is known, and files it under one more location. -/
def declareFunction (p : Program) (d : Decl) (isDefinition isStatic : Bool)
    (params : List ParamDecl) : Variable × Program :=
  let key := functionKey d.name d.location.file isStatic
  match p.knownFunction? key isDefinition with
  | some f => (f, (p.index f d.location).indexParams f params)
  | none =>
    let (f, sys) := p.system.declareFunction d.name key (signatureOf d.type) (params.map (·.name))
      isDefinition (some d.location)
    let p := ({ p with system := sys }.index f d.location).indexParams f params
    (f, p.fileFunction key isDefinition f)

/-! ### Variables -/

/-- Declares anything but a function and files it under its location. -/
def declareVariable (p : Program) (d : Decl) : Variable × Program :=
  let (v, sys) := p.system.declare d.name d.type (some d.location)
  (v, { p with system := sys }.index v d.location)

/-- Adds a declaration of a global. -/
def addGlobal (name : String) (v : Variable) :
    List (String × VariableSet) → List (String × VariableSet)
  | [] => [(name, (∅ : VariableSet).insert v.id v)]
  | (n, vs) :: rest =>
    if n = name then (n, vs.insert v.id v) :: rest else (n, vs) :: addGlobal name v rest

/-- Remembers what the program as a whole has to know about a declaration. -/
def note (p : Program) (v : Variable) (name : String) : DeclKind → Program
  | .global => { p with globals := addGlobal name v p.globals }
  | .field record => { p with fieldOwner := p.fieldOwner.insert v.id record }
  | .local | .function .. => p

/-- Makes what may not be changed unchecked. -/
def distrust (p : Program) (v : Variable) (d : Decl) : Program :=
  if p.options.isWritable d.location.file || isTrusted d.name then p
  else
    p.withStore <|
      p.store.constrainTo ⟨"Declaration in non-writable file", some d.location⟩ .wild v

/-- Declares what is new at a location. -/
def declareNew (p : Program) (d : Decl) : Variable × Program :=
  let (v, p) :=
    match d.kind with
    | .function isDefinition isStatic params => p.declareFunction d isDefinition isStatic params
    | _ => p.declareVariable d
  (v, (p.note v d.name d.kind).distrust v d)

/-- The variable of a declaration, which is made if there is none at its location. -/
def declare (p : Program) (d : Decl) : Variable × Program :=
  match p.variableAt? d.location with
  | some v => (v, p)
  | none => p.declareNew d

/-- Ties a node to a declaration's location and declares it. -/
def declareNode (p : Program) (node : NodeId) (d : Decl) : Except Fault (Variable × Program) :=
  (p.register node d.location).map fun p => p.declare d

end Program

end PointerKinds
