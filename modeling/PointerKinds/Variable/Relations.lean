/-
Demands between variables.

Structurally equal variables can be made to agree atom by atom; otherwise all that can
be said is that the outermost atoms are unchecked.  A value that flows from one object
into another lets the outermost atom it shares with the other rise freely, and equates
the levels below.  A function flows like its result, and against its parameters.

Every relation is recursion on the first variable.  The direction of a flow is passed
along, for it turns at every parameter.
-/
import PointerKinds.Variable.Basic

namespace PointerKinds

namespace Store

/-! ### Demands on one variable -/

/-- Makes the outermost atoms of a variable unchecked. -/
def makeOuterWild (s : Store) (why : Explanation) (v : Variable) : Store :=
  v.outerAtoms.foldl (fun s key => (s.addWild key why).2) s

/-- Makes the outermost atoms of several variables unchecked. -/
def makeAllOuterWild (s : Store) (why : Explanation) (vs : List Variable) : Store :=
  vs.foldl (·.makeOuterWild why) s

/-- Demands a kind of every atom of a variable. -/
def constrainTo (s : Store) (why : Explanation) (k : Kind) (v : Variable) : Store :=
  v.atoms.foldl (fun s key => (s.addEq (.atom key) (.kind k) why).2) s

/-! ### Agreement -/

/-- Equates atoms pairwise, as far as both lists go. -/
def equateAtoms (s : Store) (as bs : List AtomKey) : Store :=
  (as.zip bs).foldl (fun s p => (s.addEq (.atom p.1) (.atom p.2)).2) s

mutual

/-- Makes two variables agree.  Structurally different ones become unchecked. -/
def equate (s : Store) (why : Explanation) : Variable → Variable → Store
  | .object a, .object b =>
    if a.id = b.id then s
    else if Variable.sameLevels false a b then s.equateAtoms a.atoms b.atoms
    else s.makeAllOuterWild why [.object a, .object b]
  | .code a f, .code b g =>
    if a.id = b.id then s
    else if Variable.sameLevels false a b && f.sameShape false g then
      (s.equateAtoms a.atoms b.atoms).equate why f g
    else s.makeAllOuterWild why [.code a f, .code b g]
  | .function h r ps, .function h' r' ps' =>
    if h.id = h'.id then s
    else if ps.length = ps'.length then (s.equate why r r').equateAll why ps ps'
    else s.makeAllOuterWild why [.function h r ps, .function h' r' ps']
  | v, w => s.makeAllOuterWild why [v, w]

/-- Makes variables agree pairwise. -/
def equateAll (s : Store) (why : Explanation) : List Variable → List Variable → Store
  | v :: vs, w :: ws => (s.equate why v w).equateAll why vs ws
  | _, _ => s

end

/-! ### Flow -/

/-- The kinds that flow: all that something has been given up for. -/
def flowingKinds : List Kind := [.arr, .ntArr, .wild]

/-- Lets the outermost levels that two objects have in common flow, and equates the
levels below.  Levels are aligned from the inside. -/
def flowLevels (s : Store) (source target : Object) : Store :=
  let n := min source.depth target.depth
  match source.atoms.drop (source.depth - n), target.atoms.drop (target.depth - n) with
  | x :: xs, y :: ys => (flowingKinds.foldl (·.addFlow x y ·) s).equateAtoms xs ys
  | _, _ => s

/-- Which way values flow between the two arguments of a relation. -/
inductive Direction where
  | forward
  | backward
deriving DecidableEq

namespace Direction

/-- Against the direction. -/
def turn : Direction → Direction
  | forward => backward
  | backward => forward

/-- The two arguments, source first. -/
def orient {α : Type} (d : Direction) (a b : α) : α × α :=
  match d with
  | forward => (a, b)
  | backward => (b, a)

end Direction

/-- Makes two variables that cannot flow into each other unchecked, source first. -/
def rejectFlow (s : Store) (why : Explanation) (d : Direction) (v w : Variable) : Store :=
  let (source, target) := d.orient v w
  s.makeAllOuterWild why [source, target]

mutual

/-- Lets values flow between two variables in a direction. -/
def flowAlong (s : Store) (why : Explanation) (d : Direction) : Variable → Variable → Store
  | .object a, .object b =>
    if a.id = b.id then s
    else if a.base = b.base then
      let (source, target) := d.orient a b
      s.flowLevels source target
    else s.rejectFlow why d (.object a) (.object b)
  | .code a f, .code b g =>
    if a.id = b.id then s
    else if a.base = b.base && f.sameShape false g then
      if min a.depth b.depth = 0 then s
      else
        let (source, target) := d.orient a b
        (s.flowLevels source target).flowAlong why d f g
    else s.rejectFlow why d (.code a f) (.code b g)
  | .function h r ps, .function h' r' ps' =>
    if h.id = h'.id then s
    else if ps.length = ps'.length then
      (s.flowAlong why d r r').flowAllAlong why d.turn ps ps'
    else s.rejectFlow why d (.function h r ps) (.function h' r' ps')
  | v, w => s.rejectFlow why d v w

/-- Lets values flow pairwise in a direction. -/
def flowAllAlong (s : Store) (why : Explanation) (d : Direction) :
    List Variable → List Variable → Store
  | v :: vs, w :: ws => (s.flowAlong why d v w).flowAllAlong why d vs ws
  | _, _ => s

end

/-- Lets values flow from one variable into another. -/
def flow (s : Store) (why : Explanation) (source target : Variable) : Store :=
  s.flowAlong why .forward source target

/-! ### Casts -/

/-- What a cast of one variable to the type of another demands.  A safe cast equates the
levels they have in common, from the outside in; an unsafe one makes both unchecked. -/
def cast (s : Store) (location : Option Location) (safe : Bool) (target source : Variable) : Store :=
  let why : Explanation := ⟨"Casted to a different type", location⟩
  if safe then
    match target, source with
    | .object a, .object b | .object a, .code b _ | .code a _, .object b =>
      s.equateAtoms a.atoms b.atoms
    | .code a f, .code b g =>
      (s.equateAtoms a.atoms b.atoms).equate ⟨"Function pointer cast", location⟩ f g
    | v, w => s.equate why v w
  else s.makeAllOuterWild why [target, source]

end Store

end PointerKinds
