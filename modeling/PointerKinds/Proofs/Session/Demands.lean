/-
What is demanded, as a list.

A relation between variables comes down to three demands on atoms: that one has a kind, that
two are equal, and that every kind flows from one to another.  The relations impose their
demands as they find them, so what a relation does to a store does not depend on the store: it
imposes a list that can be read off the variables.  Every list here follows the recursion of
the relation it is the list of, and an equation says that the relation imposes it.
-/
import PointerKinds.Program.Link

namespace PointerKinds

/-- What is demanded of one atom or of two. -/
inductive Demand where
  /-- The atom has a kind, for a reason. -/
  | pin (key : AtomKey) (k : Kind) (why : Explanation)
  /-- Both atoms have the same kind. -/
  | join (a b : AtomKey)
  /-- Every kind that flows does so from the first atom to the second. -/
  | flow (source target : AtomKey)
deriving DecidableEq

namespace Store

/-- Imposes a demand. -/
def impose (s : Store) : Demand → Store
  | .pin key k why => (s.addEq (.atom key) (.kind k) why).2
  | .join a b => (s.addEq (.atom a) (.atom b)).2
  | .flow source target => flowingKinds.foldl (·.addFlow source target ·) s

/-- Imposes demands, one after the other. -/
def imposeAll (s : Store) (l : List Demand) : Store := l.foldl impose s

@[simp] theorem imposeAll_nil (s : Store) : s.imposeAll [] = s := rfl

@[simp] theorem imposeAll_cons (s : Store) (d : Demand) (l : List Demand) :
    s.imposeAll (d :: l) = (s.impose d).imposeAll l := rfl

@[simp] theorem imposeAll_append (s : Store) (l l' : List Demand) :
    s.imposeAll (l ++ l') = (s.imposeAll l).imposeAll l' :=
  List.foldl_append

/-- What is imposed in steps is imposed at once. -/
theorem foldl_eq_imposeAll {α : Type} {step : Store → α → Store} {demands : α → List Demand}
    (hstep : ∀ s a, step s a = s.imposeAll (demands a)) (s : Store) (l : List α) :
    l.foldl step s = s.imposeAll (l.flatMap demands) := by
  induction l generalizing s with
  | nil => rfl
  | cons a rest ih => rw [List.foldl_cons, hstep, ih, List.flatMap_cons, imposeAll_append]

end Store

namespace Demand

open Store (Direction)

/-! ### The lists -/

/-- The outermost atoms of a variable are unchecked. -/
def outer (why : Explanation) (v : Variable) : List Demand := v.outerAtoms.map (.pin · .wild why)

/-- The outermost atoms of several variables are unchecked. -/
def outerAll (why : Explanation) (vs : List Variable) : List Demand := vs.flatMap (outer why)

/-- Every atom of a variable has a kind. -/
def throughout (why : Explanation) (k : Kind) (v : Variable) : List Demand := v.atoms.map (.pin · k why)

/-- Atoms are equal pairwise. -/
def joins (as bs : List AtomKey) : List Demand := (as.zip bs).map fun p => .join p.1 p.2

mutual

/-- Two variables agree. -/
def agree (why : Explanation) : Variable → Variable → List Demand
  | .object a, .object b =>
    if a.id = b.id then []
    else if Variable.sameLevels false a b then joins a.atoms b.atoms
    else outerAll why [.object a, .object b]
  | .code a f, .code b g =>
    if a.id = b.id then []
    else if Variable.sameLevels false a b && f.sameShape false g then joins a.atoms b.atoms ++ agree why f g
    else outerAll why [.code a f, .code b g]
  | .function h r ps, .function h' r' ps' =>
    if h.id = h'.id then []
    else if ps.length = ps'.length then agree why r r' ++ agreeAll why ps ps'
    else outerAll why [.function h r ps, .function h' r' ps']
  | v, w => outerAll why [v, w]

/-- Variables agree pairwise. -/
def agreeAll (why : Explanation) : List Variable → List Variable → List Demand
  | v :: vs, w :: ws => agree why v w ++ agreeAll why vs ws
  | _, _ => []

end

/-- The outermost levels that two objects have in common flow, and the levels below agree. -/
def levels (source target : Object) : List Demand :=
  let n := min source.depth target.depth
  match source.atoms.drop (source.depth - n), target.atoms.drop (target.depth - n) with
  | x :: xs, y :: ys => .flow x y :: joins xs ys
  | _, _ => []

/-- Two variables that cannot flow into each other are unchecked, the source first. -/
def reject (why : Explanation) (d : Direction) (v w : Variable) : List Demand :=
  outerAll why [(d.orient v w).1, (d.orient v w).2]

mutual

/-- Values flow between two variables in a direction. -/
def along (why : Explanation) (d : Direction) : Variable → Variable → List Demand
  | .object a, .object b =>
    if a.id = b.id then []
    else if a.base = b.base then levels (d.orient a b).1 (d.orient a b).2
    else reject why d (.object a) (.object b)
  | .code a f, .code b g =>
    if a.id = b.id then []
    else if a.base = b.base && f.sameShape false g then
      if min a.depth b.depth = 0 then []
      else levels (d.orient a b).1 (d.orient a b).2 ++ along why d f g
    else reject why d (.code a f) (.code b g)
  | .function h r ps, .function h' r' ps' =>
    if h.id = h'.id then []
    else if ps.length = ps'.length then along why d r r' ++ allAlong why d.turn ps ps'
    else reject why d (.function h r ps) (.function h' r' ps')
  | v, w => reject why d v w

/-- Values flow pairwise in a direction. -/
def allAlong (why : Explanation) (d : Direction) : List Variable → List Variable → List Demand
  | v :: vs, w :: ws => along why d v w ++ allAlong why d vs ws
  | _, _ => []

end

/-- A variable is cast to the type of another. -/
def cast (location : Option Location) (safe : Bool) (target source : Variable) : List Demand :=
  let why : Explanation := ⟨"Casted to a different type", location⟩
  if safe then
    match target, source with
    | .object a, .object b | .object a, .code b _ | .code a _, .object b => joins a.atoms b.atoms
    | .code a f, .code b g => joins a.atoms b.atoms ++ agree ⟨"Function pointer cast", location⟩ f g
    | v, w => agree why v w
  else outerAll why [target, source]

end Demand

namespace Store

variable (s : Store) (why : Explanation) (d : Direction)

/-! ### What the relations impose -/

theorem makeOuterWild_eq (v : Variable) : s.makeOuterWild why v = s.imposeAll (Demand.outer why v) := by
  unfold makeOuterWild imposeAll Demand.outer
  rw [List.foldl_map]
  rfl

theorem makeAllOuterWild_eq (vs : List Variable) :
    s.makeAllOuterWild why vs = s.imposeAll (Demand.outerAll why vs) :=
  foldl_eq_imposeAll (fun s v => s.makeOuterWild_eq why v) s vs

theorem constrainTo_eq (k : Kind) (v : Variable) :
    s.constrainTo why k v = s.imposeAll (Demand.throughout why k v) := by
  unfold constrainTo imposeAll Demand.throughout
  rw [List.foldl_map]
  rfl

theorem equateAtoms_eq (as bs : List AtomKey) : s.equateAtoms as bs = s.imposeAll (Demand.joins as bs) := by
  unfold equateAtoms imposeAll Demand.joins
  rw [List.foldl_map]
  rfl

mutual

theorem equate_eq (s : Store) : ∀ v w, s.equate why v w = s.imposeAll (Demand.agree why v w)
  | .object a, .object b => by
      simp only [equate, Demand.agree, makeAllOuterWild_eq, equateAtoms_eq]
      split
      · rfl
      · split <;> rfl
  | .code a f, .code b g => by
      simp only [equate, Demand.agree, makeAllOuterWild_eq, equateAtoms_eq]
      split
      · rfl
      · split
        · rw [imposeAll_append, equate_eq]
        · rfl
  | .function h r ps, .function h' r' ps' => by
      simp only [equate, Demand.agree, makeAllOuterWild_eq]
      split
      · rfl
      · split
        · rw [imposeAll_append, equate_eq, equateAll_eq]
        · rfl
  | .object _, .code .. | .object _, .function .. | .code .., .object _ | .code .., .function ..
  | .function .., .object _ | .function .., .code .. => by
      simp only [equate, Demand.agree, makeAllOuterWild_eq]

theorem equateAll_eq (s : Store) : ∀ vs ws, s.equateAll why vs ws = s.imposeAll (Demand.agreeAll why vs ws)
  | v :: vs, w :: ws => by
      simp only [equateAll, Demand.agreeAll]
      rw [imposeAll_append, equate_eq, equateAll_eq]
  | [], _ | _ :: _, [] => by simp only [equateAll, Demand.agreeAll, imposeAll_nil]

end

theorem flowLevels_eq (source target : Object) :
    s.flowLevels source target = s.imposeAll (Demand.levels source target) := by
  simp only [flowLevels, Demand.levels]
  generalize source.atoms.drop _ = as, target.atoms.drop _ = bs
  cases as with
  | nil => rfl
  | cons x xs =>
      cases bs with
      | nil => rfl
      | cons y ys =>
          dsimp only
          rw [equateAtoms_eq, imposeAll_cons, impose]

theorem rejectFlow_eq (v w : Variable) : s.rejectFlow why d v w = s.imposeAll (Demand.reject why d v w) :=
  s.makeAllOuterWild_eq why _

mutual

theorem flowAlong_eq (s : Store) (d : Direction) :
    ∀ v w, s.flowAlong why d v w = s.imposeAll (Demand.along why d v w)
  | .object a, .object b => by
      simp only [flowAlong, Demand.along, flowLevels_eq, rejectFlow_eq]
      split
      · rfl
      · split <;> rfl
  | .code a f, .code b g => by
      simp only [flowAlong, Demand.along, flowLevels_eq, rejectFlow_eq]
      split
      · rfl
      · split
        · split
          · rfl
          · rw [imposeAll_append, flowAlong_eq]
        · rfl
  | .function h r ps, .function h' r' ps' => by
      simp only [flowAlong, Demand.along, rejectFlow_eq]
      split
      · rfl
      · split
        · rw [imposeAll_append, flowAlong_eq, flowAllAlong_eq]
        · rfl
  | .object _, .code .. | .object _, .function .. | .code .., .object _ | .code .., .function ..
  | .function .., .object _ | .function .., .code .. => by
      simp only [flowAlong, Demand.along, rejectFlow_eq]

theorem flowAllAlong_eq (s : Store) (d : Direction) :
    ∀ vs ws, s.flowAllAlong why d vs ws = s.imposeAll (Demand.allAlong why d vs ws)
  | v :: vs, w :: ws => by
      simp only [flowAllAlong, Demand.allAlong]
      rw [imposeAll_append, flowAlong_eq, flowAllAlong_eq]
  | [], _ | _ :: _, [] => by simp only [flowAllAlong, Demand.allAlong, imposeAll_nil]

end

theorem cast_eq (location : Option Location) (safe : Bool) (target source : Variable) :
    s.cast location safe target source = s.imposeAll (Demand.cast location safe target source) := by
  cases safe with
  | false => exact s.makeAllOuterWild_eq _ _
  | true =>
      simp only [cast, Demand.cast, if_true, equateAtoms_eq, equate_eq]
      split <;> simp only [imposeAll_append]

end Store

namespace Demand

/-! ### Assignments, arguments and globals -/

/-- A value is assigned.  It flows if the variables are structurally equal. -/
def assign (target source : Variable) (location : Option Location) : List Demand :=
  if target.sameShape false source then along ⟨"Assignment", location⟩ .forward source target
  else
    agree ⟨"Assigning from " ++ source.name ++ " to " ++ target.name ++ " with incompatible types", location⟩
      target source

/-- An argument has no parameter. -/
def passExtra (handleVarargs variadic : Bool) (location : Location) (arg : Variable) : List Demand :=
  if variadic && handleVarargs then []
  else
    let reason := if variadic then "Passing argument to a function accepting var args"
      else "Passing more arguments than parameters"
    outer ⟨reason, some location⟩ arg

/-- Arguments are passed to parameters. -/
def passArgs (handleVarargs variadic : Bool) (location : Location) :
    List (Option Variable) → List Variable → List Demand
  | [], _ => []
  | none :: args, params => passArgs handleVarargs variadic location args params.tail
  | some arg :: args, param :: params =>
    along ⟨"Argument passing", some location⟩ .forward arg param ++
      passArgs handleVarargs variadic location args params
  | some arg :: args, [] =>
    passExtra handleVarargs variadic location arg ++ passArgs handleVarargs variadic location args []

/-- A result is received. -/
def receive (location : Location) (ret : Variable) : Option Variable → List Demand
  | some result => along ⟨"Call result", some location⟩ .forward ret result
  | none => []

/-- Neighbours in a list agree. -/
def neighbours (why : Explanation) : List Variable → List Demand
  | v :: w :: vs => agree why v w ++ neighbours why (w :: vs)
  | _ => []

end Demand

namespace Program

open Store (imposeAll_append)

variable (p : Program)

theorem store_assign (target source : Variable) (location : Option Location) :
    (p.assign target source location).store = p.store.imposeAll (Demand.assign target source location) := by
  unfold assign Demand.assign
  split
  · exact Store.flowAlong_eq _ _ _ _ _
  · exact Store.equate_eq _ _ _ _

theorem store_cast (targetType : CType) (target : Variable) (sourceType : CType) (source : Variable)
    (location : Option Location) : (p.cast targetType target sourceType source location).store =
      p.store.imposeAll (Demand.cast location (targetType.castSafe sourceType) target source) :=
  Store.cast_eq _ _ _ _ _

theorem store_makeWild (v : Variable) (why : Explanation) :
    (p.makeWild v why).store = p.store.imposeAll (Demand.throughout why .wild v) :=
  Store.constrainTo_eq _ _ _ _

/-! ### Declarations -/

/-- What may not be changed is unchecked. -/
def distrustDemands (v : Variable) (d : Decl) : List Demand :=
  if p.options.isWritable d.location.file || isTrusted d.name then []
  else Demand.throughout ⟨"Declaration in non-writable file", some d.location⟩ .wild v

theorem store_distrust (v : Variable) (d : Decl) :
    (p.distrust v d).store = p.store.imposeAll (p.distrustDemands v d) := by
  unfold distrust distrustDemands
  split
  · rfl
  · exact Store.constrainTo_eq _ _ _ _

/-! ### Calls -/

theorem passArgs_eq (s : Store) (handleVarargs variadic : Bool) (location : Location)
    (args : List (Option Variable)) (params : List Variable) :
    passArgs s handleVarargs variadic location args params =
      s.imposeAll (Demand.passArgs handleVarargs variadic location args params) := by
  induction args generalizing s params with
  | nil => simp only [passArgs, Demand.passArgs, Store.imposeAll_nil]
  | cons arg rest ih =>
      rcases arg with _ | arg
      · simp only [passArgs, Demand.passArgs, ih]
      · cases params with
        | nil =>
            simp only [passArgs, passExtra, Demand.passArgs, Demand.passExtra, ih, imposeAll_append]
            split
            · rfl
            · rw [Store.makeOuterWild_eq]
        | cons param params =>
            simp only [passArgs, Demand.passArgs, ih, imposeAll_append]
            exact congrArg (Store.imposeAll · _) (Store.flowAlong_eq _ _ _ _ _)

/-- A call is related to the function it means. -/
def callFunctionDemands (c : CallSite) : Variable → List Demand
  | .function head ret params =>
    Demand.passArgs p.options.handleVarargs head.variadic c.location c.args params ++
      Demand.receive c.location ret c.result
  | _ => []

theorem store_callFunction (c : CallSite) (f : Variable) :
    (p.callFunction c f).store = p.store.imposeAll (p.callFunctionDemands c f) := by
  cases f with
  | object | code => rfl
  | function head ret params =>
      simp only [callFunction, callFunctionDemands, imposeAll_append, passArgs_eq]
      cases c.result with
      | none => rfl
      | some result => exact Store.flowAlong_eq _ _ _ _ _

/-- Nothing is known of the function. -/
def callUnknownDemands (c : CallSite) : List Demand :=
  Demand.outerAll ⟨"Call to function with unknown type", some c.location⟩ (c.args.filterMap id ++ c.result.toList)

theorem store_callUnknown (c : CallSite) : (p.callUnknown c).store = p.store.imposeAll (callUnknownDemands c) :=
  Store.makeAllOuterWild_eq _ _ _

/-- The function is an allocator, which may be distrusted as a matter of policy. -/
def callAllocatorDemands (c : CallSite) : List Demand :=
  match c.result with
  | some result =>
    if p.options.allocUnsafe then
      Demand.outer ⟨"Unsafe call to allocator function", some c.location⟩ result
    else []
  | none => []

theorem store_callAllocator (c : CallSite) :
    (p.callAllocator c).store = p.store.imposeAll (p.callAllocatorDemands c) := by
  unfold callAllocator callAllocatorDemands
  cases c.result with
  | none => rfl
  | some result =>
      simp only
      split
      · exact Store.makeOuterWild_eq _ _ _
      · unfold addByteCount
        split <;> try split
        all_goals rfl

/-- What a call demands. -/
def callDemands (c : CallSite) : List Demand :=
  if isAllocator c.callee then p.callAllocatorDemands c
  else
    match p.callee? c with
    | some (f, q) => q.callFunctionDemands c f
    | none => callUnknownDemands c

/-! ### Linking -/

theorem equateNeighbours_eq (s : Store) (why : Explanation) (vs : List Variable) :
    equateNeighbours s why vs = s.imposeAll (Demand.neighbours why vs) := by
  induction vs generalizing s with
  | nil => simp only [equateNeighbours, Demand.neighbours, Store.imposeAll_nil]
  | cons v rest ih =>
      cases rest with
      | nil => simp only [equateNeighbours, Demand.neighbours, Store.imposeAll_nil]
      | cons w ws =>
          simp only [equateNeighbours, Demand.neighbours, imposeAll_append, Store.equate_eq]
          exact ih _

/-- All declarations of each global agree. -/
def globalDemands : List Demand :=
  p.globals.flatMap fun g => Demand.neighbours ⟨"Linking global variables", none⟩ g.2.values

theorem store_linkGlobals : p.linkGlobals.store = p.store.imposeAll p.globalDemands :=
  Store.foldl_eq_imposeAll (fun s g => equateNeighbours_eq s _ g.2.values) p.store p.globals

/-- A function has no body, and may be distrusted as a matter of policy. -/
def externDemands (name : String) (f : Variable) : List Demand :=
  if p.options.externUnsafe && !isTrusted name then
    Demand.throughout ⟨"External function without a body", none⟩ .wild f
  else []

theorem store_markExtern (name : String) (f : Variable) :
    (p.markExtern name f).store = p.store.imposeAll (p.externDemands name f) := by
  have hoptions : (p.setExtern name false).options = p.options := rfl
  simp only [markExtern, externDemands, hoptions]
  split
  · exact (p.setExtern name false).store_makeWild f _
  · rfl

/-- What is filed under one key is related. -/
def functionDemands (key : String) : List Demand :=
  match p.definitions.get? key, p.declarations.get? key with
  | some defn, some decl => Demand.along ⟨"Function declaration and definition", none⟩ .forward defn decl
  | none, some decl => p.externDemands key decl
  | _, none => []

theorem store_linkFunction (key : String) :
    (p.linkFunction key).store = p.store.imposeAll (p.functionDemands key) := by
  unfold linkFunction functionDemands
  cases p.definitions.get? key <;> cases p.declarations.get? key
  · rfl
  · exact p.store_markExtern key _
  · rfl
  · exact Store.flowAlong_eq _ _ _ _ _

/-- A placeholder agrees with the function it stands for. -/
def placeholderDemands (name : String) (f : Variable) : List Demand :=
  match p.functionAt? name with
  | some real => Demand.agree ⟨"Implicit function declaration", none⟩ f real
  | none => p.externDemands name f

theorem store_linkPlaceholder (name : String) (f : Variable) :
    (p.linkPlaceholder name f).store = p.store.imposeAll (p.placeholderDemands name f) := by
  unfold linkPlaceholder placeholderDemands
  cases p.functionAt? name with
  | none => exact p.store_markExtern name f
  | some real => exact Store.equate_eq _ _ _ _

/-- What linking demands. -/
def linkDemands : List Demand :=
  p.globalDemands ++ p.functionKeys.flatMap p.functionDemands ++
    p.onDemand.entries.flatMap fun e => p.placeholderDemands e.1 e.2

end Program

end PointerKinds
