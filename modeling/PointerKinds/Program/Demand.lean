/-
What assignments, casts and calls demand.

A call passes its arguments to the parameters of the function it means, and the result
back.  A function not yet declared is represented by a placeholder of the type it is
called with, to be related to the function itself when the program is linked.
-/
import PointerKinds.Program.Declare

namespace PointerKinds

/-- A call. -/
structure CallSite where
  callee : String
  /-- The type of the function as it appears at the call. -/
  signature : Option Signature := none
  /-- The variable of each argument that has one. -/
  args : List (Option Variable) := []
  /-- The variable that receives the result. -/
  result : Option Variable := none
  /-- The size that an allocator is asked for. -/
  allocSize : Option BoundsExpr := none
  location : Location

namespace Program

/-! ### Assignments and casts -/

/-- A value is assigned.  It flows if the variables are structurally equal. -/
def assign (p : Program) (target source : Variable) (location : Option Location) : Program :=
  p.withStore <|
    if target.sameShape false source then p.store.flow ⟨"Assignment", location⟩ source target
    else
      let reason := "Assigning from " ++ source.name ++ " to " ++ target.name ++
        " with incompatible types"
      p.store.equate ⟨reason, location⟩ target source

/-- A value is cast and assigned. -/
def cast (p : Program) (targetType : CType) (target : Variable) (sourceType : CType)
    (source : Variable) (location : Option Location) : Program :=
  p.withStore (p.store.cast location (targetType.castSafe sourceType) target source)

/-- A variable is used in a way that cannot be checked. -/
def makeWild (p : Program) (v : Variable) (why : Explanation) : Program :=
  p.withStore (p.store.constrainTo why .wild v)

/-! ### Bounds -/

/-- What a variable is to the names in its bounds. -/
def ownerOf (p : Program) (v : Variable) : BoundsOwner :=
  match p.fieldOwner.get? v.id with
  | some record => .field record
  | none => .variable

/-- The atom whose bounds a variable's are. -/
def boundedAtom? (v : Variable) : Option AtomKey := v.object?.bind (·.outer?)

/-- Whether an expression would tell anything new about the length of what a variable
points to. -/
def isBoundsNews (p : Program) (v : Variable) (e : BoundsExpr) : Bool :=
  match boundedAtom? v with
  | some key => BoundsTable.isNews p.bounds key (e.classify? (p.ownerOf v))
  | none => false

/-- Records the length of what a variable points to. -/
def addBounds (p : Program) (v : Variable) (e : BoundsExpr) : Program :=
  match boundedAtom? v with
  | some key => { p with bounds := BoundsTable.add p.bounds key (e.classify? (p.ownerOf v)) }
  | none => p

/-- Records the size of what a variable points to. -/
def addByteCount (p : Program) (v : Variable) (e : BoundsExpr) : Program :=
  match boundedAtom? v with
  | some key =>
    let size := (e.classify? (p.ownerOf v)).map ({ · with kind := .byteCount })
    { p with bounds := BoundsTable.add p.bounds key size }
  | none => p

/-! ### Calls -/

/-- The placeholder for a function that is not declared, which is made if there is none. -/
def placeholder (p : Program) (name : String) (sig : Signature) (location : Location) :
    Variable × Program :=
  match p.onDemand.get? name with
  | some f => (f, p)
  | none =>
    let (f, sys) := p.system.declareFunction name name sig [] false (some location)
    let p := { p with system := sys }.locateAtoms f location
    (f, { p with onDemand := p.onDemand.insert name f })

/-- The function that a call means, if anything is known of it. -/
def callee? (p : Program) (c : CallSite) : Option (Variable × Program) :=
  match p.lookup? c.callee c.location.file with
  | some f => some (f, p)
  | none => c.signature.map fun sig => p.placeholder c.callee sig c.location

/-- What becomes of an argument without a parameter. -/
def passExtra (s : Store) (handleVarargs variadic : Bool) (location : Location) (arg : Variable) :
    Store :=
  if variadic && handleVarargs then s
  else
    let reason := if variadic then "Passing argument to a function accepting var args"
      else "Passing more arguments than parameters"
    s.makeOuterWild ⟨reason, some location⟩ arg

/-- Passes arguments to parameters, in order. -/
def passArgs (s : Store) (handleVarargs variadic : Bool) (location : Location) :
    List (Option Variable) → List Variable → Store
  | [], _ => s
  | none :: args, params => passArgs s handleVarargs variadic location args params.tail
  | some arg :: args, param :: params =>
    passArgs (s.flow ⟨"Argument passing", some location⟩ arg param) handleVarargs variadic location
      args params
  | some arg :: args, [] =>
    passArgs (passExtra s handleVarargs variadic location arg) handleVarargs variadic location
      args []

/-- Relates a call to the function it means. -/
def callFunction (p : Program) (c : CallSite) (f : Variable) : Program :=
  match f with
  | .function head ret params =>
    let s := passArgs p.store p.options.handleVarargs head.variadic c.location c.args params
    p.withStore <|
      match c.result with
      | some result => s.flow ⟨"Call result", some c.location⟩ ret result
      | none => s
  | _ => p

/-- A call of a function of which nothing is known. -/
def callUnknown (p : Program) (c : CallSite) : Program :=
  p.withStore <|
    p.store.makeAllOuterWild ⟨"Call to function with unknown type", some c.location⟩
      (c.args.filterMap id ++ c.result.toList)

/-- A call of an allocator. -/
def callAllocator (p : Program) (c : CallSite) : Program :=
  match c.result with
  | some result =>
    if p.options.allocUnsafe then
      p.withStore <|
        p.store.makeOuterWild ⟨"Unsafe call to allocator function", some c.location⟩ result
    else
      match c.allocSize with
      | some size => p.addByteCount result size
      | none => p
  | none => p

/-- What a call demands. -/
def call (p : Program) (c : CallSite) : Program :=
  if isAllocator c.callee then p.callAllocator c
  else
    match p.callee? c with
    | some (f, p) => p.callFunction c f
    | none => p.callUnknown c

end Program

end PointerKinds
