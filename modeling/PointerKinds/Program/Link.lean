/-
Linking: what is one thing although it was declared several times.

All declarations of a global agree.  A function with a body flows into its declarations
without one, and a placeholder agrees with the function it stands for.  Functions that
have no body anywhere are external, and may be distrusted as a matter of policy.
-/
import PointerKinds.Program.Demand

namespace PointerKinds

namespace Program

/-- Makes neighbours in a list agree. -/
def equateNeighbours (s : Store) (why : Explanation) : List Variable → Store
  | v :: w :: vs => equateNeighbours (s.equate why v w) why (w :: vs)
  | _ => s

/-- Makes all declarations of each global agree. -/
def linkGlobals (p : Program) : Program :=
  p.withStore <|
    p.globals.foldl (fun s g => equateNeighbours s ⟨"Linking global variables", none⟩ g.2.values)
      p.store

/-- Notes whether a function has a body. -/
def setExtern (p : Program) (key : String) (hasBody : Bool) : Program :=
  { p with externs := p.externs.insert key hasBody }

/-- Notes that a function has no body, and distrusts it if that is the policy. -/
def markExtern (p : Program) (name : String) (f : Variable) : Program :=
  let p := p.setExtern name false
  if p.options.externUnsafe && !isTrusted name then
    p.makeWild f ⟨"External function without a body", none⟩
  else p

/-- Relates what is filed under one key. -/
def linkFunction (p : Program) (key : String) : Program :=
  match p.definitions.get? key, p.declarations.get? key with
  | some defn, some decl =>
    (p.withStore (p.store.flow ⟨"Function declaration and definition", none⟩ defn decl)).setExtern
      key true
  | some _, none => p.setExtern key true
  | none, some decl => p.markExtern key decl
  | none, none => p

/-- Relates a placeholder to the function it stands for. -/
def linkPlaceholder (p : Program) (name : String) (f : Variable) : Program :=
  match p.functionAt? name with
  | some real => p.withStore (p.store.equate ⟨"Implicit function declaration", none⟩ f real)
  | none => p.markExtern name f

/-- The keys of all declared functions, ascending. -/
def functionKeys (p : Program) : List String :=
  (SortedSet.ofList (p.declarations.keys ++ p.definitions.keys)).toList

/-- Links the program: globals, then functions by key, then placeholders by name. -/
def link (p : Program) : Program :=
  let p := p.linkGlobals
  let p := p.functionKeys.foldl linkFunction p
  p.onDemand.entries.foldl (fun p e => p.linkPlaceholder e.1 e.2) p

end Program

end PointerKinds
