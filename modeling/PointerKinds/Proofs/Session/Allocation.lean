/-
Declaring only allocates.

A declaration registers atoms, bars some of them from being unchecked, pins some to be arrays
and gives preferences to others.  This follows the recursion of the type that is declared, and
it is all that declaring does to a store: variables are filed in the registers around it.
-/
import PointerKinds.Proofs.Store.Recorded
import PointerKinds.Proofs.Session.Walk

namespace PointerKinds

namespace Store

variable {s₀ s : Store}

/-- The stores that declarations make of a store.  Atoms are registered; some are barred from
being unchecked, some are at least plain arrays, and some have preferences. -/
inductive Allocates (s₀ : Store) : Store → Prop
  | refl : Allocates s₀ s₀
  | newAtom {s : Store} (h : Allocates s₀ s) : Allocates s₀ s.newAtom.2
  | bar {s : Store} (h : Allocates s₀ s) (key : AtomKey) : Allocates s₀ (s.forbid key .wild)
  | prefer {s : Store} (h : Allocates s₀ s) (key : AtomKey) (soft : SoftPreferences) :
      Allocates s₀ (s.setSoft key soft)
  | pinArr {s : Store} (h : Allocates s₀ s) (key : AtomKey) (why : Explanation) :
      Allocates s₀ (s.addEq (.atom key) (.kind .arr) why).2

/-- Declaring is recording. -/
theorem Allocates.grows (h : s₀.Allocates s) : s₀.Grows s := by
  induction h with
  | refl => exact .refl
  | newAtom _ ih => exact ih.newAtom
  | bar _ key ih => exact ih.bar key
  | prefer _ key soft ih => exact ih.prefer key soft
  | pinArr _ key why ih => exact ih.pin key .arr why

end Store

namespace System

variable {s₀ : Store} {sys : System}

theorem allocates_newLevel (h : s₀.Allocates sys.store) (location : Option Location) (ty : CType) :
    s₀.Allocates (sys.newLevel location ty).2.store := by
  have hshape : ∀ (s : Store) (key : AtomKey) (shape : LevelShape), s₀.Allocates s →
      s₀.Allocates (imposeShape s key location shape) := by
    intro s key shape hs
    cases shape with
    | pointer => exact hs
    | sizedArray n => exact (hs.bar key).pinArr key _
    | unsizedArray => exact hs.pinArr key _
  exact (hshape _ _ (shapeOf ty) h.newAtom).prefer _ _

/-- What allocating a level keeps of a store. -/
def KeptByLevels (location : Option Location) (P : Store → Prop) : Prop :=
  ∀ (sys : System) (ty : CType), P sys.store → P (sys.newLevel location ty).2.store

variable {P : Store → Prop} {location : Option Location}

mutual

/-- What allocating a level keeps, declaring a type keeps. -/
theorem declareType_keeps {sys : System} (hP : KeptByLevels location P) (h : P sys.store) (name : String) (bare : Bool)
    (levels : List Level) : ∀ ty, P (declareType sys location name bare levels ty).2.store
  | .pointer pointee checked => by
      simp only [declareType]
      exact declareType_keeps hP (hP sys _ h) name false _ pointee
  | .array element size => by
      simp only [declareType]
      exact declareType_keeps hP (hP sys _ h) name false _ element
  | .function ret params variadic => by
      simp only [declareType]
      have hret := declareType_keeps hP h (name ++ "$ret") true [] ret
      have hparams := declareParams_keeps hP hret (paramNames [] params.length) params
      split
      · exact hparams
      · exact hparams
  | .void | .scalar .. | .record .. => by
      simp only [declareType]
      exact h

theorem declareParams_keeps {sys : System} (hP : KeptByLevels location P) (h : P sys.store) :
    ∀ names tys, P (declareParams sys location names tys).2.store
  | name :: names, ty :: tys => by
      simp only [declareParams]
      exact declareParams_keeps hP (declareType_keeps hP h name true [] ty) names tys
  | [], _ => by
      simp only [declareParams]
      exact h
  | _ :: _, [] => by
      simp only [declareParams]
      exact h

end

theorem declareFunction_keeps (hP : KeptByLevels location P) (h : P sys.store) (name key : String) (sig : Signature)
    (given : List String) (hasBody : Bool) :
    P (sys.declareFunction name key sig given hasBody location).2.store :=
  declareParams_keeps hP (declareType_keeps hP h _ true [] sig.ret) _ sig.params

theorem keptByLevels_allocates (s₀ : Store) (location : Option Location) : KeptByLevels location s₀.Allocates :=
  fun _ ty h => allocates_newLevel h location ty

theorem allocates_declareType (h : s₀.Allocates sys.store) (location : Option Location) (name : String) (bare : Bool)
    (levels : List Level) (ty : CType) : s₀.Allocates (declareType sys location name bare levels ty).2.store :=
  declareType_keeps (keptByLevels_allocates s₀ location) h name bare levels ty

theorem allocates_declareFunction (h : s₀.Allocates sys.store) (name key : String) (sig : Signature)
    (given : List String) (hasBody : Bool) (location : Option Location) :
    s₀.Allocates (sys.declareFunction name key sig given hasBody location).2.store :=
  declareFunction_keeps (keptByLevels_allocates s₀ location) h name key sig given hasBody

end System

namespace Program

variable {s₀ : Store} {p : Program}

theorem store_index (p : Program) (v : Variable) (location : Location) :
    (p.index v location).store = p.store := rfl

/-- What filing a parameter under the place of its declaration keeps, filing all of them does. -/
theorem indexParams_induction {P : Program → Prop} {f : Variable} {params : List ParamDecl}
    (hP : ∀ q, ∀ param ∈ params, ∀ v ∈ f.params, P q → P (q.index v param.location)) (hp : P p) :
    P (p.indexParams f params) := by
  have hpairs : ∀ e ∈ params.zip f.params, ∀ q, P q → P (q.index e.2 e.1.location) := fun e he q =>
    hP q e.1 (List.of_mem_zip he).1 e.2 (List.of_mem_zip he).2
  unfold indexParams
  generalize params.zip f.params = pairs at hpairs
  induction pairs generalizing p with
  | nil => exact hp
  | cons e rest ih =>
      obtain ⟨he, hrest⟩ := List.forall_mem_cons.1 hpairs
      exact ih (he p hp) hrest

theorem system_indexParams (p : Program) (f : Variable) (params : List ParamDecl) :
    (p.indexParams f params).system = p.system :=
  indexParams_induction (P := fun q => q.system = p.system) (fun _ _ _ _ _ h => h) rfl

theorem store_indexParams (p : Program) (f : Variable) (params : List ParamDecl) :
    (p.indexParams f params).store = p.store :=
  congrArg System.store (p.system_indexParams f params)

theorem system_fileFunction (p : Program) (key : String) (isDefinition : Bool) (f : Variable) :
    (p.fileFunction key isDefinition f).system = p.system := by
  unfold fileFunction
  split <;> rfl

theorem allocates_declareFunction (h : s₀.Allocates p.store) (d : Decl) (isDefinition isStatic : Bool)
    (params : List ParamDecl) : s₀.Allocates (p.declareFunction d isDefinition isStatic params).2.store := by
  simp only [declareFunction]
  split
  · rw [store_indexParams, store_index]
    exact h
  · unfold store
    rw [system_fileFunction, system_indexParams]
    exact System.allocates_declareFunction h _ _ _ _ _ _

theorem allocates_declareVariable (h : s₀.Allocates p.store) (d : Decl) :
    s₀.Allocates (p.declareVariable d).2.store :=
  System.allocates_declareType h _ _ _ _ d.type

theorem store_note (p : Program) (v : Variable) (name : String) (kind : DeclKind) :
    (p.note v name kind).store = p.store := by
  cases kind <;> rfl

theorem allocates_callee? (h : s₀.Allocates p.store) (c : CallSite) {f : Variable} {q : Program}
    (hc : p.callee? c = some (f, q)) : s₀.Allocates q.store := by
  unfold callee? at hc
  split at hc
  · rw [← (Prod.mk.inj (Option.some.inj hc)).2]
    exact h
  · obtain ⟨sig, -, he⟩ := Option.map_eq_some_iff.1 hc
    rw [← (Prod.mk.inj he).2]
    split
    · exact h
    · exact System.allocates_declareFunction h _ _ _ _ _ _

end Program

end PointerKinds
