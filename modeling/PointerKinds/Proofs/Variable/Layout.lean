/-
A declared type lays its variable out.

The levels of a variable are those of its type, from the outside in; where the type ends in a
function, the variable has one as its target, laid out by what the type ends in.  `LaidOut` says
so by recursion on the type, in the steps in which types are declared, so declaring a type makes
a variable that it lays out.

Two variables that one type lays out have one shape.  So have, as far as levels go, variables of
types that casts may safely read as each other: these differ in their scalars at most, and there
is nothing below a scalar.
-/
import PointerKinds.Proofs.CType.Casts
import PointerKinds.Proofs.Variable.Parts

namespace PointerKinds

open PointerKinds.System (shapeOf)

variable {bare : Bool} {outer outer' : List LevelShape} {ty ty' : CType} {v w : Variable} {o : Object}

/-! ### What a type lays out -/

/-- How the pointer and array levels of a type are declared, outermost first. -/
def CType.levelShapes : CType → List LevelShape
  | .pointer pointee checked => shapeOf (.pointer pointee checked) :: pointee.levelShapes
  | .array element size => shapeOf (.array element size) :: element.levelShapes
  | _ => []

theorem CType.length_levelShapes : ∀ ty : CType, ty.levelShapes.length = ty.depth
  | .pointer pointee _ => by simp only [levelShapes, depth, List.length_cons, pointee.length_levelShapes]
  | .array element _ => by simp only [levelShapes, depth, List.length_cons, element.length_levelShapes]
  | .void | .scalar .. | .record _ | .function .. => rfl

/-- A type lays a variable out within levels that are there already.  A function type with none of
them is laid out as a function if `bare` is set. -/
inductive LaidOut : Bool → List LevelShape → CType → Variable → Prop
  | pointer {bare : Bool} {outer : List LevelShape} {pointee : CType} {checked : Option CheckedForm} {v : Variable}
      (h : LaidOut false (outer ++ [shapeOf (.pointer pointee checked)]) pointee v) :
      LaidOut bare outer (.pointer pointee checked) v
  | array {bare : Bool} {outer : List LevelShape} {element : CType} {size : Option Nat} {v : Variable}
      (h : LaidOut false (outer ++ [shapeOf (.array element size)]) element v) :
      LaidOut bare outer (.array element size) v
  | data {bare : Bool} {outer : List LevelShape} {ty : CType} {o : Object} (hpointee : ty.pointee? = none)
      (hsignature : ty.signature? = none) (hshapes : o.shapes = outer) (hbase : o.base = ty.text) :
      LaidOut bare outer ty (.object o)
  | code {outer : List LevelShape} {ret : CType} {params : List CType} {variadic : Bool} {o : Object}
      {target : Variable} (hshapes : o.shapes = outer) (hbase : o.base = CType.text (.function ret params variadic))
      (htarget : LaidOut true [] (.function ret params variadic) target) :
      LaidOut false outer (.function ret params variadic) (.code o target)
  | function {ret : CType} {params : List CType} {variadic : Bool} {head : FunctionHead} {ret' : Variable}
      {params' : List Variable} (hret : LaidOut true [] ret ret') (hlength : params'.length = params.length)
      (hparams : ∀ (i : Nat) (ty : CType) (v : Variable),
        params[i]? = some ty → params'[i]? = some v → LaidOut true [] ty v) :
      LaidOut true [] (.function ret params variadic) (.function head ret' params')

/-- An object has the levels that were there already, and then those of its type. -/
theorem LaidOut.shapes (h : LaidOut bare outer ty v) (ho : v.object? = some o) :
    o.shapes = outer ++ ty.levelShapes := by
  induction h with
  | pointer _ ih | array _ ih => rw [ih ho, List.append_assoc]; rfl
  | @data _ _ ty _ hpointee _ hshapes _ =>
      rw [← Option.some.inj ho, hshapes]
      cases ty with
      | pointer | array => cases hpointee
      | void | scalar | record | function => exact (List.append_nil _).symm
  | code hshapes =>
      rw [← Option.some.inj ho, hshapes]
      exact (List.append_nil _).symm
  | function => cases ho

namespace System

variable {sys sys' : System} {location : Option Location} {levels : List Level}

theorem length_paramNames (given : List String) (n : Nat) : (paramNames given n).length = n := by
  simp only [paramNames, List.length_map, List.length_range]

mutual

/-- **What is declared with a type is laid out by it.** -/
theorem declareType_laidOut (sys : System) (location : Option Location) (name : String) (bare : Bool)
    (levels : List Level) (hbare : bare = true → levels = []) :
    ∀ ty, LaidOut bare (levels.map (·.shape)) ty (declareType sys location name bare levels ty).1
  | .pointer pointee checked => by
      simp only [declareType]
      have h := declareType_laidOut (sys.newLevel location (.pointer pointee checked)).2 location name false
        (levels ++ [(sys.newLevel location (.pointer pointee checked)).1]) (fun hb => nomatch hb) pointee
      rw [List.map_append] at h
      exact .pointer h
  | .array element size => by
      simp only [declareType]
      have h := declareType_laidOut (sys.newLevel location (.array element size)).2 location name false
        (levels ++ [(sys.newLevel location (.array element size)).1]) (fun hb => nomatch hb) element
      rw [List.map_append] at h
      exact .array h
  | .function ret params variadic => by
      simp only [declareType]
      have hret := declareType_laidOut sys location (name ++ "$ret") true [] (fun _ => rfl) ret
      obtain ⟨hlength, hparams⟩ := declareParams_laidOut (declareType sys location (name ++ "$ret") true [] ret).2
        location (paramNames [] params.length) params (length_paramNames _ _)
      cases bare with
      | true =>
          rw [hbare rfl]
          exact .function hret hlength hparams
      | false => exact .code rfl rfl (.function hret hlength hparams)
  | .void | .scalar .. | .record .. => by
      simp only [declareType]
      exact .data rfl rfl rfl rfl

theorem declareParams_laidOut (sys : System) (location : Option Location) :
    ∀ (names : List String) (tys : List CType), names.length = tys.length →
      (declareParams sys location names tys).1.length = tys.length ∧
      ∀ (i : Nat) (ty : CType) (v : Variable), tys[i]? = some ty →
        (declareParams sys location names tys).1[i]? = some v → LaidOut true [] ty v
  | name :: names, ty :: tys, hlength => by
      simp only [declareParams]
      have hfirst := declareType_laidOut sys location name true [] (fun _ => rfl) ty
      obtain ⟨hcount, hrest⟩ := declareParams_laidOut (declareType sys location name true [] ty).2 location names tys
        (Nat.succ.inj hlength)
      refine ⟨congrArg Nat.succ hcount, fun i ty' v hty hv => ?_⟩
      cases i with
      | zero =>
          obtain ⟨rfl, rfl⟩ := And.intro (Option.some.inj hty) (Option.some.inj hv)
          exact hfirst
      | succ i => exact hrest i ty' v hty hv
  | [], [], _ => by
      simp only [declareParams]
      exact ⟨rfl, fun _ _ _ hty => nomatch hty⟩

end

/-! ### Declared types -/

/-- A variable was declared with a type: a declaration of it made the variable, and whatever was
filed then is filed still.  A type is declared `bare` by `declare`, and not by `declareObject`. -/
def DeclaredAs (sys : System) (bare : Bool) (ty : CType) (v : Variable) : Prop :=
  ∃ before location name, (declareType before location name bare [] ty).1 = v ∧
    (declareType before location name bare [] ty).2.Continues sys

theorem declaredAs_self (sys : System) (location : Option Location) (name : String) (bare : Bool) (ty : CType) :
    (declareType sys location name bare [] ty).2.DeclaredAs bare ty (declareType sys location name bare [] ty).1 :=
  ⟨sys, location, name, rfl, .refl _⟩

theorem DeclaredAs.of_continues (h : sys.DeclaredAs bare ty v) (hsys : sys.Continues sys') :
    sys'.DeclaredAs bare ty v := by
  obtain ⟨before, location, name, hv, hcontinues⟩ := h
  exact ⟨before, location, name, hv, hcontinues.trans hsys⟩

theorem DeclaredAs.laidOut (h : sys.DeclaredAs bare ty v) : LaidOut bare [] ty v := by
  obtain ⟨before, location, name, rfl, -⟩ := h
  exact declareType_laidOut before location name bare [] (fun _ => rfl) ty

/-- What was declared with a type is filed. -/
theorem DeclaredAs.mem_declared (h : sys.DeclaredAs bare ty v) : v ∈ sys.declared := by
  obtain ⟨before, location, name, rfl, hcontinues⟩ := h
  refine hcontinues.subset ?_
  rw [(declareType_appends before location name bare [] ty).declared]
  exact List.mem_append_right _ (Variable.self_mem_parts _)

/-- Certain objects of a system were declared with a type each. -/
def TypesObjects (sys : System) (vs : List Variable) : Prop :=
  ∀ v ∈ vs, ∀ o, v.object? = some o → ∃ bare ty, sys.DeclaredAs bare ty v

theorem typesObjects_append {vs ws : List Variable} :
    sys.TypesObjects (vs ++ ws) ↔ sys.TypesObjects vs ∧ sys.TypesObjects ws :=
  List.forall_mem_append

theorem TypesObjects.of_continues {vs : List Variable} (h : sys.TypesObjects vs) (hsys : sys.Continues sys') :
    sys'.TypesObjects vs := fun v hv o ho => by
  obtain ⟨bare, ty, hty⟩ := h v hv o ho
  exact ⟨bare, ty, hty.of_continues hsys⟩

/-- If the proper parts of a variable have types, so has the whole. -/
theorem TypesObjects.parts (h : sys.TypesObjects (Variable.partsOfAll v.directParts))
    (hv : ∀ o, v.object? = some o → ∃ bare ty, sys.DeclaredAs bare ty v) : sys.TypesObjects v.parts := by
  rw [Variable.parts_eq]
  exact typesObjects_append.2 ⟨h, List.forall_mem_singleton.2 hv⟩

/-- Parameters that are declared after something leave it as it is. -/
theorem TypesObjects.append_params {vs : List Variable} {location : Option Location} {names : List String}
    {tys : List CType} (h : sys.TypesObjects vs)
    (hparams : (declareParams sys location names tys).2.TypesObjects
      (Variable.partsOfAll (declareParams sys location names tys).1)) :
    (declareParams sys location names tys).2.TypesObjects
      (vs ++ Variable.partsOfAll (declareParams sys location names tys).1) :=
  typesObjects_append.2 ⟨h.of_continues (declareParams_appends sys location names tys).continues, hparams⟩

mutual

/-- The proper parts of a variable were declared with types of their own. -/
theorem typesObjects_declareType (sys : System) (location : Option Location) (name : String) (bare : Bool)
    (levels : List Level) : ∀ ty, (declareType sys location name bare levels ty).2.TypesObjects
      (Variable.partsOfAll (declareType sys location name bare levels ty).1.directParts)
  | .pointer pointee checked => by
      simp only [declareType]
      exact typesObjects_declareType (sys.newLevel location _).2 location name false _ pointee
  | .array element size => by
      simp only [declareType]
      exact typesObjects_declareType (sys.newLevel location _).2 location name false _ element
  | .function ret params variadic => by
      simp only [declareType]
      have hret := (typesObjects_declareType sys location (name ++ "$ret") true [] ret).parts
        fun _ _ => ⟨true, ret, declaredAs_self ..⟩
      have hboth := hret.append_params (typesObjects_declareParams _ location (paramNames [] params.length) params)
      split
      · dsimp only
        exact hboth.of_continues (continues_push _ _)
      · refine typesObjects_append.2
          ⟨TypesObjects.parts ?_ fun _ ho => (nomatch ho), fun _ hv => absurd hv List.not_mem_nil⟩
        exact (hboth.of_continues (continues_push _ _)).of_continues (continues_push _ _)
  | .void | .scalar .. | .record .. => by
      simp only [declareType]
      exact fun _ hv => absurd hv List.not_mem_nil

theorem typesObjects_declareParams (sys : System) (location : Option Location) : ∀ names tys,
    (declareParams sys location names tys).2.TypesObjects
      (Variable.partsOfAll (declareParams sys location names tys).1)
  | name :: names, ty :: tys => by
      simp only [declareParams, Variable.partsOfAll]
      have hfirst := (typesObjects_declareType sys location name true [] ty).parts
        fun _ _ => ⟨true, ty, declaredAs_self ..⟩
      exact hfirst.append_params (typesObjects_declareParams _ location names tys)
  | [], _ | _ :: _, [] => by
      simp only [declareParams, Variable.partsOfAll]
      exact fun _ hv => absurd hv List.not_mem_nil

end

/-- **Every object was declared with a type**, on its own or as a part of something. -/
theorem Constructed.typesObjects (h : sys.Constructed) : sys.TypesObjects sys.declared := by
  have hmore : ∀ {sys sys' : System} {v : Variable}, sys.TypesObjects sys.declared → sys.Appends sys' v.parts →
      sys'.TypesObjects v.parts → sys'.TypesObjects sys'.declared := by
    intro sys sys' v hsys happends hv
    rw [happends.declared]
    exact typesObjects_append.2 ⟨hsys.of_continues happends.continues, hv⟩
  induction h with
  | empty => exact fun _ hv => absurd hv List.not_mem_nil
  | @store sys _ t _ ih =>
      have hsame : sys.Continues { sys with store := t } := List.prefix_refl _
      exact ih.of_continues hsame
  | @declareType sys _ location name bare ty ih =>
      refine hmore ih (declareType_appends sys location name bare [] ty) ?_
      exact (typesObjects_declareType sys location name bare [] ty).parts fun _ _ => ⟨bare, ty, declaredAs_self ..⟩
  | @declareFunction sys _ name key sig given hasBody location ih =>
      refine hmore ih (declareFunction_appends sys name key sig given hasBody location) ?_
      refine TypesObjects.parts ?_ fun _ ho => nomatch ho
      have hret := (typesObjects_declareType sys location (name ++ "$ret") true [] sig.ret).parts
        fun _ _ => ⟨true, sig.ret, declaredAs_self ..⟩
      have hparams := typesObjects_declareParams (System.declareType sys location (name ++ "$ret") true [] sig.ret).2
        location (paramNames given sig.params.length) sig.params
      exact (hret.append_params hparams).of_continues (continues_push _ _)

end System

/-! ### Variables of one type, or of types alike -/

namespace Variable

theorem sameShapes_of_getElem? {strict : Bool} : ∀ {vs ws : List Variable}, vs.length = ws.length →
    (∀ (i : Nat) (v w : Variable), vs[i]? = some v → ws[i]? = some w → sameShape strict v w = true) →
    sameShapes strict vs ws = true
  | [], [], _, _ => by simp only [sameShapes]
  | v :: vs, w :: ws, hlength, h => by
      simp only [sameShapes, Bool.and_eq_true]
      exact ⟨h 0 v w rfl rfl, sameShapes_of_getElem? (Nat.succ.inj hlength) fun i => h (i + 1)⟩

end Variable

namespace LaidOut

theorem depth_eq {a b : Object} (hlength : outer.length = outer'.length) (ha : a.shapes = outer)
    (hb : b.shapes = outer') : a.depth = b.depth := by
  rw [← ha, ← hb] at hlength
  simpa only [Object.shapes, Object.depth, List.length_map] using hlength

theorem sameLevels {a b : Object} (hlength : outer.length = outer'.length) (ha : a.shapes = outer)
    (hb : b.shapes = outer') (hbase : a.base = b.base) : Variable.sameLevels false a b = true := by
  simp [Variable.sameLevels, depth_eq hlength ha hb, hbase]

/-- Variables that one type lays out have one shape. -/
theorem sameShape (h : LaidOut bare outer ty v) (h' : LaidOut bare outer' ty w)
    (hlength : outer.length = outer'.length) : v.sameShape false w = true := by
  induction h generalizing outer' w with
  | pointer _ ih =>
      cases h' with
      | pointer h' => exact ih h' (by rw [List.length_append, List.length_append, hlength])
      | data hpointee => cases hpointee
  | array _ ih =>
      cases h' with
      | array h' => exact ih h' (by rw [List.length_append, List.length_append, hlength])
      | data hpointee => cases hpointee
  | data hpointee hsignature hshapes hbase =>
      cases h' with
      | pointer | array => cases hpointee
      | code | function => cases hsignature
      | data _ _ hshapes' hbase' =>
          simp only [Variable.sameShape]
          exact sameLevels hlength hshapes hshapes' (hbase.trans hbase'.symm)
  | code hshapes hbase _ ih =>
      cases h' with
      | data _ hsignature => cases hsignature
      | code hshapes' hbase' htarget' =>
          simp only [Variable.sameShape, Bool.and_eq_true]
          exact ⟨sameLevels hlength hshapes hshapes' (hbase.trans hbase'.symm), ih htarget' rfl⟩
  | @function ret params _ _ _ params' _ hcount _ ihret ihparams =>
      cases h' with
      | data _ hsignature => cases hsignature
      | function hret' hcount' hparams' =>
          simp only [Variable.sameShape, Bool.and_eq_true]
          refine ⟨ihret hret' rfl, Variable.sameShapes_of_getElem? (hcount.trans hcount'.symm) fun i v w hv hw => ?_⟩
          have hi : i < params.length := hcount ▸ (List.getElem?_eq_some_iff.1 hv).1
          have hty := List.getElem?_eq_getElem hi
          exact ihparams i _ v hty hv (hparams' i _ w hty hw) rfl

/-- Variables of types that casts may read as each other have one shape, or are data of one depth. -/
theorem castable (h : LaidOut bare outer ty v) (h' : LaidOut bare outer' ty' w)
    (hlength : outer.length = outer'.length) (hsafe : ty.castSafe ty' = true) :
    v.sameShape false w = true ∨ ∃ a b, v = .object a ∧ w = .object b ∧ a.depth = b.depth := by
  fun_induction CType.castSafe ty ty' generalizing bare outer outer' v w with
  | case1 pointee _ pointee' _ ih =>
      cases h with
      | data hpointee => cases hpointee
      | pointer h =>
          cases h' with
          | data hpointee => cases hpointee
          | pointer h' => exact ih h h' (by rw [List.length_append, List.length_append, hlength]; rfl) hsafe
  | case2 =>
      cases h with
      | @data _ _ _ a _ _ hshapes =>
          cases h' with
          | @data _ _ _ b _ _ hshapes' => exact .inr ⟨a, b, rfl, rfl, depth_eq hlength hshapes hshapes'⟩
  | case3 ty ty' =>
      obtain rfl := of_decide_eq_true hsafe
      exact .inl (h.sameShape h' hlength)

end LaidOut

end PointerKinds
