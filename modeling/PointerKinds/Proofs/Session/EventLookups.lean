/-
What an event looks up is found.

A program hands variables on by number as well, and looks them up where it files what was declared,
where it resolves a node and where it calls a function.  The guarded replay of an event does the
same things in the same order: it looks up every such variable with all its parts, and whatever it
demands is posted with lookups, also while a type is being declared.  It is told apart from the
replay by nothing: along a walk, what is resolved or called was filed, and what is declared is.

An event that cannot be replayed is none of this.  It answers with its error, as it always did.
-/
import PointerKinds.Proofs.Session.Lookups

namespace PointerKinds

namespace System

/-! ### Declaring types -/

/-- What the shape of a level demands of its atom. -/
def guardedImposeShape (s : Store) (key : AtomKey) (location : Option Location) : LevelShape → Except Breach Store
  | .sizedArray _ => (s.forbid key .wild).guardedImpose (.pin key .arr ⟨"Constant size array", location⟩)
  | .unsizedArray => s.guardedImpose (.pin key .arr ⟨"Unsized array", location⟩)
  | .pointer => .ok s

/-- Allocates the atom of the outermost level of a type. -/
def guardedNewLevel (sys : System) (location : Option Location) (ty : CType) : Except Breach (Level × System) := do
  let (key, s) := sys.store.newAtom
  let s ← guardedImposeShape s key location (shapeOf ty)
  return (⟨key, shapeOf ty⟩, { sys with store := s.setSoft key (preferencesOf ty) })

mutual

/-- Declares a variable, with the levels already allocated further out. -/
def guardedDeclareType (sys : System) (location : Option Location) (name : String) (bare : Bool) (levels : List Level) :
    CType → Except Breach (Variable × System)
  | .pointer pointee checked => do
    let (level, sys) ← sys.guardedNewLevel location (.pointer pointee checked)
    guardedDeclareType sys location name false (levels ++ [level]) pointee
  | .array element size => do
    let (level, sys) ← sys.guardedNewLevel location (.array element size)
    guardedDeclareType sys location name false (levels ++ [level]) element
  | .function ret params variadic => do
    let (ret', sys) ← guardedDeclareType sys location (name ++ "$ret") true [] ret
    let (params', sys) ← guardedDeclareParams sys location (paramNames [] params.length) params
    let (target, sys) := sys.push fun id =>
      .function ⟨id, name, "", paramNames [] params.length, false, variadic⟩ ret' params'
    if bare then return (target, sys)
    else return sys.push fun id => .code ⟨id, name, levels, CType.text (.function ret params variadic)⟩ target
  | ty => return sys.push fun id => .object ⟨id, name, levels, ty.text⟩

/-- Declares parameters under the given names. -/
def guardedDeclareParams (sys : System) (location : Option Location) :
    List String → List CType → Except Breach (List Variable × System)
  | name :: names, ty :: tys => do
    let (v, sys) ← guardedDeclareType sys location name true [] ty
    let (vs, sys) ← guardedDeclareParams sys location names tys
    return (v :: vs, sys)
  | _, _ => return ([], sys)

end

/-- Declares a function under a key. -/
def guardedDeclareFunction (sys : System) (name key : String) (sig : Signature) (given : List String) (hasBody : Bool)
    (location : Option Location) : Except Breach (Variable × System) := do
  let names := paramNames given sig.params.length
  let (ret, sys) ← guardedDeclareType sys location (name ++ "$ret") true [] sig.ret
  let (params, sys) ← guardedDeclareParams sys location names sig.params
  return sys.push fun id => .function ⟨id, name, key, names, hasBody, sig.variadic⟩ ret params

theorem guardedImposeShape_eq (s : Store) (key : AtomKey) (location : Option Location) (shape : LevelShape) :
    guardedImposeShape s key location shape = .ok (imposeShape s key location shape) := by
  cases shape with
  | sizedArray n =>
      simp only [guardedImposeShape, imposeShape]
      exact Store.guardedImpose_eq _ _
  | unsizedArray =>
      simp only [guardedImposeShape, imposeShape]
      exact Store.guardedImpose_eq _ _
  | pointer => rfl

theorem guardedNewLevel_eq (sys : System) (location : Option Location) (ty : CType) :
    sys.guardedNewLevel location ty = .ok (sys.newLevel location ty) := by
  unfold guardedNewLevel
  simp only [guardedImposeShape_eq]
  rfl

mutual

theorem guardedDeclareType_eq (sys : System) (location : Option Location) (name : String) (bare : Bool)
    (levels : List Level) : ∀ ty, guardedDeclareType sys location name bare levels ty =
      .ok (declareType sys location name bare levels ty)
  | .pointer pointee checked => by
      simp only [guardedDeclareType, declareType, guardedNewLevel_eq]
      exact guardedDeclareType_eq (sys.newLevel location _).2 location name false _ pointee
  | .array element size => by
      simp only [guardedDeclareType, declareType, guardedNewLevel_eq]
      exact guardedDeclareType_eq (sys.newLevel location _).2 location name false _ element
  | .function ret params variadic => by
      have hret := guardedDeclareType_eq sys location (name ++ "$ret") true [] ret
      have hparams := guardedDeclareParams_eq (declareType sys location (name ++ "$ret") true [] ret).2 location
        (paramNames [] params.length) params
      simp only [guardedDeclareType, declareType, hret, hparams, bind, Except.bind, pure, Except.pure]
      split <;> rfl
  | .void | .scalar .. | .record .. => by
      simp only [guardedDeclareType, declareType]
      rfl

theorem guardedDeclareParams_eq (sys : System) (location : Option Location) :
    ∀ names tys, guardedDeclareParams sys location names tys = .ok (declareParams sys location names tys)
  | name :: names, ty :: tys => by
      have hv := guardedDeclareType_eq sys location name true [] ty
      have hvs := guardedDeclareParams_eq (declareType sys location name true [] ty).2 location names tys
      simp only [guardedDeclareParams, declareParams, hv, hvs, bind, Except.bind, pure, Except.pure]
  | [], _ | _ :: _, [] => by
      simp only [guardedDeclareParams, declareParams]
      rfl

end

theorem guardedDeclareFunction_eq (sys : System) (name key : String) (sig : Signature) (given : List String)
    (hasBody : Bool) (location : Option Location) : sys.guardedDeclareFunction name key sig given hasBody location =
      .ok (sys.declareFunction name key sig given hasBody location) := by
  unfold guardedDeclareFunction
  simp only [guardedDeclareType_eq, guardedDeclareParams_eq, bind, Except.bind]
  rfl

end System

namespace Program

variable {p q : Program} {v f : Variable} {vs : List Variable} {l : List Demand} {options : Options}

/-! ### Variables and demands -/

/-- Looks up variables, and all their parts. -/
def lookUp (p : Program) (vs : List Variable) : Except Breach Unit :=
  Breach.stopAt .variable (fun id => (p.system.find? id).isSome) (vs.flatMap Variable.ids)

theorem lookUp_eq (h : ∀ v ∈ vs, p.system.Files v) : p.lookUp vs = .ok () := by
  refine Breach.stopAt_eq_ok_iff.2 fun id hid => ?_
  obtain ⟨v, hv, hid⟩ := List.mem_flatMap.1 hid
  unfold System.find?
  rw [List.getElem?_eq_getElem ((h v hv).lt_of_mem_ids id hid)]
  rfl

theorem lookUp_self (h : p.system.Files v) : p.lookUp [v] = .ok () := lookUp_eq (List.forall_mem_singleton.2 h)

/-- The program `q` with the demands imposed on the store of `p`. -/
def imposing (p q : Program) (l : List Demand) : Except Breach Program :=
  return q.withStore (← p.store.guardedImposeAll l)

theorem imposing_eq (h : q.store = p.store.imposeAll l) : p.imposing q l = .ok q := by
  unfold imposing
  rw [Store.guardedImposeAll_eq, ← h]
  rfl

/-- Files a variable that is there. -/
def guardedIndex (p : Program) (v : Variable) (location : Location) : Except Breach Program := do
  p.lookUp [v]
  return p.index v location

theorem guardedIndex_eq (h : p.system.Files v) (location : Location) :
    p.guardedIndex v location = .ok (p.index v location) := by
  unfold guardedIndex
  rw [lookUp_self h]
  rfl

/-! ### Declarations -/

/-- Declares a function, unless it is known, and files it under one more location. -/
def guardedDeclareFunction (p : Program) (d : Decl) (isDefinition isStatic : Bool) (params : List ParamDecl) :
    Except Breach (Variable × Program) :=
  let key := functionKey d.name d.location.file isStatic
  match p.knownFunction? key isDefinition with
  | some f => do
    let p ← p.guardedIndex f d.location
    return (f, p.indexParams f params)
  | none => do
    let (f, sys) ← p.system.guardedDeclareFunction d.name key (signatureOf d.type) (params.map (·.name)) isDefinition
      (some d.location)
    let p ← { p with system := sys }.guardedIndex f d.location
    return (f, (p.indexParams f params).fileFunction key isDefinition f)

/-- Declares anything but a function and files it under its location. -/
def guardedDeclareVariable (p : Program) (d : Decl) : Except Breach (Variable × Program) := do
  let (v, sys) ← p.system.guardedDeclareType (some d.location) d.name true [] d.type
  return (v, ← { p with system := sys }.guardedIndex v d.location)

/-- Notes what was declared, and makes it unchecked if it may not be changed. -/
def guardedNote (p : Program) (d : Decl) (v : Variable) : Except Breach Program := do
  let p := p.note v d.name d.kind
  p.lookUp [v]
  p.imposing (p.distrust v d) (p.distrustDemands v d)

/-- Declares what is new at a location. -/
def guardedDeclareNew (p : Program) (d : Decl) : Except Breach (Variable × Program) :=
  match d.kind with
  | .function isDefinition isStatic params => do
    let (v, p) ← p.guardedDeclareFunction d isDefinition isStatic params
    return (v, ← p.guardedNote d v)
  | _ => do
    let (v, p) ← p.guardedDeclareVariable d
    return (v, ← p.guardedNote d v)

/-- The variable of a declaration, which is made if there is none at its location. -/
def guardedDeclare (p : Program) (d : Decl) : Except Breach (Variable × Program) :=
  match p.variableAt? d.location with
  | some v => do
    p.lookUp [v]
    return (v, p)
  | none => p.guardedDeclareNew d

theorem guardedDeclareFunction_eq (hcoherent : p.Coherent) (d : Decl) (isDefinition isStatic : Bool)
    (params : List ParamDecl) : p.guardedDeclareFunction d isDefinition isStatic params =
      .ok (p.declareFunction d isDefinition isStatic params) := by
  simp only [guardedDeclareFunction, declareFunction]
  cases hknown : p.knownFunction? (functionKey d.name d.location.file isStatic) isDefinition with
  | some f =>
      simp only [guardedIndex_eq (hcoherent.known _ isDefinition f hknown) d.location]
      rfl
  | none =>
      simp only [System.guardedDeclareFunction_eq]
      -- The function is filed in the system that declared it.
      have hfiled := (p.system.declareFunction_files d.name (functionKey d.name d.location.file isStatic)
        (signatureOf d.type) (params.map (·.name)) isDefinition (some d.location)).2
      generalize p.system.declareFunction d.name _ _ _ _ _ = m at hfiled
      have hindex := guardedIndex_eq (p := { p with system := m.2 }) hfiled d.location
      simp only [hindex, bind, Except.bind]
      rfl

theorem guardedDeclareVariable_eq (p : Program) (d : Decl) :
    p.guardedDeclareVariable d = .ok (p.declareVariable d) := by
  have hfiled := (p.system.declareType_files (some d.location) d.name true [] d.type).2
  unfold guardedDeclareVariable declareVariable System.declare
  rw [System.guardedDeclareType_eq]
  generalize p.system.declareType (some d.location) d.name true [] d.type = m at hfiled
  have hindex := guardedIndex_eq (p := { p with system := m.2 }) hfiled d.location
  simp only [hindex, bind, Except.bind]
  rfl

theorem guardedNote_eq (h : p.system.Files v) (d : Decl) :
    p.guardedNote d v = .ok ((p.note v d.name d.kind).distrust v d) := by
  unfold guardedNote
  simp only [lookUp_self (h.of_continues (extends_note p v d.name d.kind).system)]
  exact imposing_eq (store_distrust _ v d)

theorem guardedDeclareNew_eq (hcoherent : p.Coherent) (d : Decl) : p.guardedDeclareNew d = .ok (p.declareNew d) := by
  have hvariable : (p.declareVariable d).2.system.Files (p.declareVariable d).1 :=
    (p.system.declareType_files (some d.location) d.name true [] d.type).2
  simp only [guardedDeclareNew, declareNew]
  cases hkind : d.kind with
  | function isDefinition isStatic params =>
      simp only [guardedDeclareFunction_eq hcoherent, guardedNote_eq (files_declareFunction hcoherent d _ _ _),
        bind, Except.bind, hkind]
      rfl
  | global | «local» | field =>
      simp only [guardedDeclareVariable_eq, guardedNote_eq hvariable, bind, Except.bind, hkind]
      rfl

theorem guardedDeclare_eq (hcoherent : p.Coherent) (d : Decl) : p.guardedDeclare d = .ok (p.declare d) := by
  unfold guardedDeclare declare
  cases hat : p.variableAt? d.location with
  | some v =>
      obtain ⟨vs, hvs, hhead⟩ := Option.bind_eq_some_iff.1 hat
      simp only [lookUp_self (hcoherent.located _ vs hvs v (List.mem_of_mem_head? hhead))]
      rfl
  | none => exact guardedDeclareNew_eq hcoherent d

/-! ### Calls -/

/-- The placeholder for a function that is not declared, which is made if there is none. -/
def guardedPlaceholder (p : Program) (name : String) (sig : Signature) (location : Location) :
    Except Breach (Variable × Program) :=
  match p.onDemand.get? name with
  | some f => return (f, p)
  | none => do
    let (f, sys) ← p.system.guardedDeclareFunction name name sig [] false (some location)
    { p with system := sys }.lookUp [f]
    let p := { p with system := sys }.locateAtoms f location
    return (f, { p with onDemand := p.onDemand.insert name f })

/-- The function that a call means, if anything is known of it. -/
def guardedCallee? (p : Program) (c : CallSite) : Except Breach (Option (Variable × Program)) :=
  match p.lookup? c.callee c.location.file with
  | some f => return some (f, p)
  | none =>
    match c.signature with
    | some sig => return some (← p.guardedPlaceholder c.callee sig c.location)
    | none => return none

/-- What a call demands. -/
def guardedCall (p : Program) (c : CallSite) : Except Breach Program :=
  if isAllocator c.callee then p.imposing (p.callAllocator c) (p.callAllocatorDemands c)
  else do
    match ← p.guardedCallee? c with
    | some (f, p) => do
      p.lookUp [f]
      p.imposing (p.callFunction c f) (p.callFunctionDemands c f)
    | none => p.imposing (p.callUnknown c) (callUnknownDemands c)

theorem guardedPlaceholder_eq (p : Program) (name : String) (sig : Signature) (location : Location) :
    p.guardedPlaceholder name sig location = .ok (p.placeholder name sig location) := by
  have hfiled := (p.system.declareFunction_files name name sig [] false (some location)).2
  unfold guardedPlaceholder placeholder
  cases p.onDemand.get? name with
  | some f => rfl
  | none =>
      simp only [System.guardedDeclareFunction_eq]
      generalize p.system.declareFunction name name sig [] false (some location) = m at hfiled
      have hlookup := lookUp_self (p := { p with system := m.2 }) hfiled
      simp only [hlookup, bind, Except.bind]
      rfl

theorem guardedCallee?_eq (p : Program) (c : CallSite) : p.guardedCallee? c = .ok (p.callee? c) := by
  unfold guardedCallee? callee?
  cases p.lookup? c.callee c.location.file with
  | some f => rfl
  | none =>
      cases c.signature with
      | none => rfl
      | some sig =>
          simp only [guardedPlaceholder_eq]
          rfl

theorem guardedCall_eq (hplaced : p.Placed) (hfiled : p.FiledFunctions) (c : CallSite) :
    p.guardedCall c = .ok (p.call c) := by
  unfold guardedCall call
  split
  · exact imposing_eq (p.store_callAllocator c)
  · rw [guardedCallee?_eq]
    cases hcallee : p.callee? c with
    | none => exact imposing_eq (p.store_callUnknown c)
    | some m =>
        have hlookup := lookUp_self (hplaced.callee? hfiled hcallee).2
        simp only [hlookup, bind, Except.bind]
        exact imposing_eq (m.2.store_callFunction c m.1)

/-! ### Events -/

/-- Looks up the variables of what was resolved, if it was, and goes on with it. -/
def resolving {α : Type} (p : Program) (x : Except EventError α) (involved : α → List Variable)
    (next : α → Except Breach Program) : Except Breach (Except EventError Program) :=
  match x with
  | .error e => .ok (.error e)
  | .ok a => do
    p.lookUp (involved a)
    return .ok (← next a)

/-- Replays one event. -/
def guardedReplayEvent (p : Program) : Event → Except Breach (Except EventError Program)
  | .declare node d =>
    match p.register node d.location with
    | .error e => .ok (.error (.fault e))
    | .ok p => return .ok (← p.guardedDeclare d).2
  | .assign target source location =>
    p.resolving (do return (← p.resolve target, ← p.resolve source)) (fun a => [a.1, a.2]) fun a =>
      p.imposing (p.assign a.1 a.2 location) (Demand.assign a.1 a.2 location)
  | .cast target targetType source sourceType location =>
    p.resolving (do return (← p.resolve target, ← p.resolve source)) (fun a => [a.1, a.2]) fun a =>
      p.imposing (p.cast targetType a.1 sourceType a.2 location)
        (Demand.cast location (targetType.castSafe sourceType) a.1 a.2)
  | .call callee signature args result allocSize location =>
    p.resolving (do return (← p.resolveAll args, ← p.resolveOption result)) (fun a => a.1.filterMap id ++ a.2.toList)
      fun a => p.guardedCall { callee, signature, args := a.1, result := a.2, allocSize, location }
  | .wild node why =>
    p.resolving (p.resolve node) (fun v => [v]) fun v => p.imposing (p.makeWild v why) (Demand.throughout why .wild v)
  | .bounds node e => p.resolving (p.resolve node) (fun v => [v]) fun v => return p.addBounds v e

theorem resolving_eq {α : Type} {x : Except EventError α} {involved : α → List Variable}
    {next : α → Except Breach Program} {result : α → Program} (hfiled : ∀ a, x = .ok a → ∀ v ∈ involved a, p.system.Files v)
    (hnext : ∀ a, next a = .ok (result a)) : p.resolving x involved next = .ok (x.map result) := by
  cases x with
  | error e => rfl
  | ok a =>
      simp only [resolving, lookUp_eq (hfiled a rfl), hnext]
      rfl

theorem Coherent.files_pair {target source : NodeId} (h : p.Coherent) :
    ∀ a, (do return (← p.resolve target, ← p.resolve source) : Except EventError (Variable × Variable)) = .ok a →
      ∀ v ∈ [a.1, a.2], p.system.Files v := by
  intro a ha
  obtain ⟨t, ht, ha⟩ := exists_of_bind_eq_ok ha
  obtain ⟨s, hs, ha⟩ := exists_of_bind_eq_ok ha
  obtain rfl := Except.ok.inj ha
  exact List.forall_mem_cons.2 ⟨h.files_of_resolve ht, List.forall_mem_singleton.2 (h.files_of_resolve hs)⟩

/-- **Whatever an event looks up is found**, whether or not it can be replayed. -/
theorem guardedReplayEvent_eq (hp : Walks { options } p) (e : Event) :
    p.guardedReplayEvent e = .ok (p.replayEvent e) := by
  have hcoherent : p.Coherent := hp.coherent (coherent_start options)
  have hsingle : ∀ {node : NodeId}, ∀ v, p.resolve node = .ok v → ∀ w ∈ [v], p.system.Files w := fun v hv =>
    List.forall_mem_singleton.2 (hcoherent.files_of_resolve hv)
  cases e with
  | declare node d =>
      simp only [guardedReplayEvent, replayEvent, declareNode]
      cases hregister : p.register node d.location with
      | error e => rfl
      | ok q =>
          have hopened : q.Coherent := by
            unfold register at hregister
            split at hregister
            · obtain rfl := Except.ok.inj hregister
              exact hcoherent.of_continues (.refl p.system) rfl rfl rfl
            · cases hregister
          simp only [guardedDeclare_eq hopened]
          rfl
  | assign target source location =>
      refine (resolving_eq hcoherent.files_pair fun a => imposing_eq (p.store_assign a.1 a.2 location)).trans ?_
      simp only [replayEvent]
      cases p.resolve target <;> cases p.resolve source <;> rfl
  | cast target targetType source sourceType location =>
      refine (resolving_eq hcoherent.files_pair fun a =>
        imposing_eq (p.store_cast targetType a.1 sourceType a.2 location)).trans ?_
      simp only [replayEvent]
      cases p.resolve target <;> cases p.resolve source <;> rfl
  | call callee signature args result allocSize location =>
      refine (resolving_eq (fun a ha v hv => ?_) fun a => guardedCall_eq hp.placed hp.filedFunctions _).trans ?_
      · obtain ⟨vs, hvs, ha⟩ := exists_of_bind_eq_ok ha
        obtain ⟨w, hw, ha⟩ := exists_of_bind_eq_ok ha
        obtain rfl := Except.ok.inj ha
        rcases List.mem_append.1 hv with hv | hv
        · obtain ⟨o, ho, hov⟩ := List.mem_filterMap.1 hv
          obtain ⟨i, hi⟩ := List.mem_iff_getElem?.1 ho
          exact hcoherent.files_of_resolveAll hvs (hi.trans (congrArg some hov))
        · exact hcoherent.files_of_resolveOption (hw.trans (congrArg Except.ok (Option.mem_toList.1 hv)))
      · simp only [replayEvent]
        cases p.resolveAll args <;> cases p.resolveOption result <;> rfl
  | wild node why =>
      refine (resolving_eq hsingle fun v => imposing_eq (p.store_makeWild v why)).trans ?_
      simp only [replayEvent]
      cases p.resolve node <;> rfl
  | bounds node e =>
      have hbounds : ∀ v, (pure (p.addBounds v e) : Except Breach Program) = .ok (p.addBounds v e) := fun _ => rfl
      refine (resolving_eq hsingle hbounds).trans ?_
      simp only [replayEvent]
      cases p.resolve node <;> rfl

end Program

end PointerKinds
