/-
Variables go by number.

Relations between variables stop early where two numbers agree, as if the variables did
too.  They do: a variable is filed under its number with all its parts when it is declared,
what is filed is never replaced, and whatever a node can mean has been filed.
-/
import PointerKinds.Proofs.Session.Allocation
import PointerKinds.Proofs.Tables

namespace PointerKinds

namespace System

variable {sys sys' : System} {v w : Variable}

/-- A variable and all its parts are filed under their numbers. -/
inductive Files (sys : System) : Variable → Prop
  | object {o : Object} (h : sys.find? o.id = some (.object o)) : Files sys (.object o)
  | code {o : Object} {target : Variable} (h : sys.find? o.id = some (.code o target))
      (htarget : Files sys target) : Files sys (.code o target)
  | function {head : FunctionHead} {ret : Variable} {params : List Variable}
      (h : sys.find? head.id = some (.function head ret params)) (hret : Files sys ret)
      (hparams : ∀ v ∈ params, Files sys v) : Files sys (.function head ret params)

theorem Files.find? (h : sys.Files v) : sys.find? v.id = some v := by
  cases h <;> assumption

/-- Two variables of one system that have the same number are the same. -/
theorem Files.eq_of_id_eq (hv : sys.Files v) (hw : sys.Files w) (hid : v.id = w.id) : v = w := by
  have h := hv.find?
  rw [hid, hw.find?] at h
  exact (Option.some.inj h).symm

theorem Files.params (h : sys.Files v) : ∀ w ∈ v.params, sys.Files w := by
  cases h with
  | object | code => exact fun w hw => absurd hw List.not_mem_nil
  | function _ _ hparams => exact hparams

/-! ### Declaring more -/

/-- What a system declared, another has declared too. -/
def Continues (sys sys' : System) : Prop := sys.declared <+: sys'.declared

theorem Continues.refl (sys : System) : sys.Continues sys := List.prefix_refl _

theorem Continues.trans {sys'' : System} (h : sys.Continues sys') (h' : sys'.Continues sys'') :
    sys.Continues sys'' :=
  List.IsPrefix.trans h h'

theorem Continues.find? {id : VariableId} (h : sys.Continues sys') (hv : sys.find? id = some v) :
    sys'.find? id = some v := by
  obtain ⟨rest, hrest⟩ := h
  unfold System.find? at hv ⊢
  rw [← hrest, List.getElem?_append_left (List.getElem?_eq_some_iff.1 hv).1]
  exact hv

/-- Nothing filed is replaced. -/
theorem Files.of_continues (h : sys.Files v) (hsys : sys.Continues sys') : sys'.Files v := by
  induction h with
  | object h => exact .object (hsys.find? h)
  | code h _ ih => exact .code (hsys.find? h) ih
  | function h _ _ ihret ihparams => exact .function (hsys.find? h) ihret ihparams

theorem continues_push (sys : System) (make : VariableId → Variable) : sys.Continues (sys.push make).2 :=
  List.prefix_append _ _

/-- What is pushed can be found, if it is given the number it is pushed under. -/
theorem find?_push (sys : System) {make : VariableId → Variable} (hmake : ∀ id, (make id).id = id) :
    (sys.push make).2.find? (sys.push make).1.id = some (sys.push make).1 := by
  show (sys.declared ++ [make sys.declared.length])[(make sys.declared.length).id]? = _
  rw [hmake, List.getElem?_concat_length]
  rfl

/-- A function is filed if its parts are. -/
theorem files_push_function {ret : Variable} {params : List Variable} (make : VariableId → FunctionHead)
    (hmake : ∀ id, (make id).id = id) (hret : sys.Files ret) (hparams : ∀ v ∈ params, sys.Files v) :
    (sys.push fun id => .function (make id) ret params).2.Files
      (sys.push fun id => .function (make id) ret params).1 := by
  have hsys := sys.continues_push fun id => .function (make id) ret params
  exact .function (find?_push sys hmake) (hret.of_continues hsys)
    fun v hv => (hparams v hv).of_continues hsys

mutual

/-- A type is declared after everything that was, and files what it declares. -/
theorem declareType_files (sys : System) (location : Option Location) (name : String) (bare : Bool)
    (levels : List Level) :
    ∀ ty, sys.Continues (declareType sys location name bare levels ty).2 ∧
      (declareType sys location name bare levels ty).2.Files
        (declareType sys location name bare levels ty).1
  | .pointer pointee checked => by
      simp only [declareType]
      exact declareType_files (sys.newLevel location _).2 location name false _ pointee
  | .array element size => by
      simp only [declareType]
      exact declareType_files (sys.newLevel location _).2 location name false _ element
  | .function ret params variadic => by
      simp only [declareType]
      obtain ⟨hbefore, hret⟩ := declareType_files sys location (name ++ "$ret") true [] ret
      obtain ⟨hafter, hparams⟩ := declareParams_files
        (declareType sys location (name ++ "$ret") true [] ret).2 location (paramNames [] params.length)
        params
      have hfunction := files_push_function
        (fun id => ⟨id, name, "", paramNames [] params.length, false, variadic⟩) (fun _ => rfl)
        (hret.of_continues hafter) hparams
      have hparts := hbefore.trans hafter
      split
      · dsimp only
        exact ⟨hparts.trans (continues_push _ _), hfunction⟩
      · exact ⟨(hparts.trans (continues_push _ _)).trans (continues_push _ _),
          .code (find?_push _ fun _ => rfl) (hfunction.of_continues (continues_push _ _))⟩
  | .void | .scalar .. | .record .. => by
      simp only [declareType]
      exact ⟨continues_push _ _, .object (find?_push _ fun _ => rfl)⟩

/-- Parameters are declared after everything that was, and are all filed. -/
theorem declareParams_files (sys : System) (location : Option Location) :
    ∀ names tys, sys.Continues (declareParams sys location names tys).2 ∧
      ∀ v ∈ (declareParams sys location names tys).1, (declareParams sys location names tys).2.Files v
  | name :: names, ty :: tys => by
      simp only [declareParams]
      obtain ⟨hbefore, hv⟩ := declareType_files sys location name true [] ty
      obtain ⟨hafter, hvs⟩ := declareParams_files (declareType sys location name true [] ty).2 location
        names tys
      refine ⟨hbefore.trans hafter, fun w hw => ?_⟩
      rcases List.mem_cons.1 hw with rfl | hw
      · exact hv.of_continues hafter
      · exact hvs w hw
  | [], _ => by
      simp only [declareParams]
      exact ⟨.refl sys, fun w hw => absurd hw List.not_mem_nil⟩
  | _ :: _, [] => by
      simp only [declareParams]
      exact ⟨.refl sys, fun w hw => absurd hw List.not_mem_nil⟩

end

theorem declareFunction_files (sys : System) (name key : String) (sig : Signature) (given : List String)
    (hasBody : Bool) (location : Option Location) :
    sys.Continues (sys.declareFunction name key sig given hasBody location).2 ∧
      (sys.declareFunction name key sig given hasBody location).2.Files
        (sys.declareFunction name key sig given hasBody location).1 := by
  obtain ⟨hbefore, hret⟩ := declareType_files sys location (name ++ "$ret") true [] sig.ret
  obtain ⟨hafter, hparams⟩ := declareParams_files
    (declareType sys location (name ++ "$ret") true [] sig.ret).2 location
    (paramNames given sig.params.length) sig.params
  exact ⟨(hbefore.trans hafter).trans (continues_push _ _),
    files_push_function _ (fun _ => rfl) (hret.of_continues hafter) hparams⟩

end System

namespace Program

variable {p q : Program} {v w : Variable} {location : Location}

/-- Whatever a program can look up has been filed. -/
structure Coherent (p : Program) : Prop where
  located : ∀ l vs, p.declared.get? l = some vs → ∀ v ∈ vs.values, p.system.Files v
  known : ∀ key isDefinition f, p.knownFunction? key isDefinition = some f → p.system.Files f

theorem coherent_start (options : Options) : Coherent { options } where
  located _ _ h := nomatch h
  known _ isDefinition _ h := by
    cases isDefinition <;> exact nomatch h

theorem Coherent.files_of_resolve {node : NodeId} (h : p.Coherent) (hv : p.resolve node = .ok v) :
    p.system.Files v := by
  unfold resolve at hv
  split at hv
  · rename_i v' hnode
    obtain rfl := Except.ok.inj hv
    obtain ⟨l, -, hat⟩ := Option.bind_eq_some_iff.1 hnode
    obtain ⟨vs, hvs, hhead⟩ := Option.bind_eq_some_iff.1 hat
    exact h.located l vs hvs v' (List.mem_of_mem_head? hhead)
  · exact nomatch hv

/-- Nodes that mean variables of one number mean one variable. -/
theorem Coherent.resolve_eq {node node' : NodeId} (h : p.Coherent) (hv : p.resolve node = .ok v)
    (hw : p.resolve node' = .ok w) (hid : v.id = w.id) : v = w :=
  (h.files_of_resolve hv).eq_of_id_eq (h.files_of_resolve hw) hid

/-! ### What keeps a program coherent -/

/-- A change that leaves the tables alone, however much it declares. -/
theorem Coherent.of_continues (h : p.Coherent) (hsystem : p.system.Continues q.system)
    (hdeclared : q.declared = p.declared) (hdefinitions : q.definitions = p.definitions)
    (hdeclarations : q.declarations = p.declarations) : q.Coherent where
  located l vs hvs v hv := (h.located l vs (hdeclared ▸ hvs) v hv).of_continues hsystem
  known key isDefinition f hf := by
    refine (h.known key isDefinition f ?_).of_continues hsystem
    unfold knownFunction? at hf ⊢
    rwa [hdefinitions, hdeclarations] at hf

theorem Coherent.withStore (h : p.Coherent) (s : Store) : (p.withStore s).Coherent :=
  h.of_continues (.refl p.system) rfl rfl rfl

theorem Coherent.index (h : p.Coherent) (hv : p.system.Files v) (location : Location) :
    (p.index v location).Coherent where
  located l vs hvs w hw := by
    have hvs : (p.declared.insert location ((p.declared.getD location ∅).insert v.id v)).get? l =
        some vs := hvs
    rw [SortedMap.get?_insert] at hvs
    split at hvs
    · rw [← Option.some.inj hvs] at hw
      rcases SortedMap.mem_values_insert hw with rfl | hw
      · exact hv
      · unfold SortedMap.getD at hw
        cases hold : p.declared.get? location with
        | none =>
            rw [hold] at hw
            exact absurd hw List.not_mem_nil
        | some vs =>
            rw [hold] at hw
            exact h.located location vs hold w hw
    · exact h.located l vs hvs w hw
  known := h.known

theorem Coherent.indexParams {f : Variable} (h : p.Coherent) (hf : p.system.Files f)
    (params : List ParamDecl) : (p.indexParams f params).Coherent := by
  refine (indexParams_induction (P := fun q => q.Coherent ∧ q.system = p.system)
    (fun q param _ v hv hq => ?_) ⟨h, rfl⟩).1
  exact ⟨hq.1.index (hq.2.symm ▸ hf.params v hv) param.location, hq.2⟩

theorem Coherent.fileFunction {f : Variable} (h : p.Coherent) (hf : p.system.Files f) (key : String)
    (isDefinition : Bool) : (p.fileFunction key isDefinition f).Coherent := by
  have hinsert : ∀ (m : SortedMap String Variable) (k : String) (g : Variable),
      (∀ g, m.get? k = some g → p.system.Files g) → (m.insert key f).get? k = some g →
      p.system.Files g := by
    intro m k g hm hg
    rw [SortedMap.get?_insert] at hg
    split at hg
    · exact Option.some.inj hg ▸ hf
    · exact hm g hg
  cases isDefinition with
  | true =>
      refine ⟨h.located, fun k isDefinition g hg => ?_⟩
      cases isDefinition with
      | true => exact hinsert p.definitions k g (h.known k true) hg
      | false => exact h.known k false g hg
  | false =>
      refine ⟨h.located, fun k isDefinition g hg => ?_⟩
      cases isDefinition with
      | true => exact h.known k true g hg
      | false => exact hinsert p.declarations k g (h.known k false) hg

/-! ### Declarations -/

theorem Coherent.declareFunction (h : p.Coherent) (d : Decl) (isDefinition isStatic : Bool)
    (params : List ParamDecl) : (p.declareFunction d isDefinition isStatic params).2.Coherent := by
  simp only [Program.declareFunction]
  split
  · rename_i f hf
    have hfiled := h.known _ isDefinition f hf
    exact (h.index hfiled d.location).indexParams hfiled params
  · obtain ⟨hsystem, hfiled⟩ := p.system.declareFunction_files d.name
      (functionKey d.name d.location.file isStatic) (signatureOf d.type) (params.map (·.name))
      isDefinition (some d.location)
    refine Coherent.fileFunction ?_ ?_ _ isDefinition
    · refine Coherent.indexParams ?_ hfiled params
      exact Coherent.index (p := { p with system := _ }) (h.of_continues hsystem rfl rfl rfl) hfiled
        d.location
    · rw [system_indexParams]
      exact hfiled

theorem Coherent.declareVariable (h : p.Coherent) (d : Decl) : (p.declareVariable d).2.Coherent := by
  obtain ⟨hsystem, hfiled⟩ := p.system.declareType_files (some d.location) d.name true [] d.type
  exact Coherent.index (p := { p with system := _ }) (h.of_continues hsystem rfl rfl rfl) hfiled
    d.location

theorem Coherent.note (h : p.Coherent) (v : Variable) (name : String) (kind : DeclKind) :
    (p.note v name kind).Coherent := by
  cases kind <;> exact h.of_continues (.refl p.system) rfl rfl rfl

theorem Coherent.distrust (h : p.Coherent) (v : Variable) (d : Decl) : (p.distrust v d).Coherent := by
  unfold Program.distrust
  split
  · exact h
  · exact h.withStore _

theorem Coherent.declare (h : p.Coherent) (d : Decl) : (p.declare d).2.Coherent := by
  unfold Program.declare
  split
  · exact h
  · simp only [declareNew]
    refine (Coherent.note ?_ _ d.name d.kind).distrust _ d
    split
    · exact h.declareFunction d _ _ _
    · exact h.declareVariable d

/-! ### Calls -/

theorem Coherent.callee? {c : CallSite} {f : Variable} (h : p.Coherent)
    (hc : p.callee? c = some (f, q)) : q.Coherent := by
  unfold Program.callee? at hc
  split at hc
  · exact (Prod.mk.inj (Option.some.inj hc)).2 ▸ h
  · obtain ⟨sig, -, hsig⟩ := Option.map_eq_some_iff.1 hc
    obtain rfl : (p.placeholder c.callee sig c.location).2 = q := congrArg Prod.snd hsig
    unfold Program.placeholder
    split
    · exact h
    · exact h.of_continues (p.system.declareFunction_files _ _ _ _ _ _).1 rfl rfl rfl

theorem Coherent.callFunction (h : p.Coherent) (c : CallSite) (f : Variable) :
    (p.callFunction c f).Coherent := by
  unfold Program.callFunction
  split
  · exact h.withStore _
  · exact h

theorem Coherent.callAllocator (h : p.Coherent) (c : CallSite) : (p.callAllocator c).Coherent := by
  unfold Program.callAllocator
  split
  · split
    · exact h.withStore _
    · split
      · unfold addByteCount
        split
        · exact h.of_continues (.refl p.system) rfl rfl rfl
        · exact h
      · exact h
  · exact h

theorem Coherent.call (h : p.Coherent) (c : CallSite) : (p.call c).Coherent := by
  unfold Program.call
  split
  · exact h.callAllocator c
  · split
    · rename_i f q hc
      exact (h.callee? hc).callFunction c f
    · exact h.withStore _

/-! ### Turns -/

theorem Step.coherent {e : Event} (hstep : p.Step e q) (h : p.Coherent) : q.Coherent := by
  cases hstep with
  | declare =>
      exact Coherent.declare (p := { p with unit := some _ })
        (h.of_continues (.refl p.system) rfl rfl rfl) _
  | assign | cast | wild => exact h.withStore _
  | call => exact h.call _
  | bounds =>
      unfold addBounds
      split
      · exact h.of_continues (.refl p.system) rfl rfl rfl
      · exact h

theorem Turn.coherent (hturn : p.Turn q) (h : p.Coherent) : q.Coherent := by
  cases hturn with
  | enter henter =>
      rw [(eq_of_enter henter).2]
      exact h.of_continues (.refl p.system) rfl rfl rfl
  | event hstep => exact hstep.coherent h
  | exit hexit =>
      rw [(eq_of_exit hexit).2]
      exact h.of_continues (.refl p.system) rfl rfl rfl

/-- **Along a walk, everything that can be looked up has been filed.** -/
theorem Walks.coherent (hwalks : p.Walks q) (h : p.Coherent) : q.Coherent :=
  hwalks.keeps (fun _ _ => Turn.coherent) h

end Program

end PointerKinds
