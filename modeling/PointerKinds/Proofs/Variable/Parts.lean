/-
Variables are trees, and the variables of a system are a forest.

A variable carries its parts with it, and each of them was filed before it was.  What a
declaration files is thus one tree, its nodes in the order in which they were finished, and a
system lists the trees of its declarations one after the other.  So a part has a smaller number
than what it is a part of; two variables that have a part in common are nested in one another;
and variables of one shape, which have equally many parts, are the same or have none in common.

Nothing here depends on the store: it may be replaced at any time between two declarations.
-/
import Mathlib.Data.List.Nodup
import Mathlib.Data.List.Pairwise
import Mathlib.Data.List.Perm.Basic
import PointerKinds.Proofs.Session.Numbering

namespace PointerKinds

/-- Where nothing is listed twice, nothing is listed for two. -/
theorem eq_of_nodup_flatMap {α β : Type} {f : α → List β} {l : List α} (h : (l.flatMap f).Nodup) {a b : α}
    (ha : a ∈ l) (hb : b ∈ l) {x : β} (hxa : x ∈ f a) (hxb : x ∈ f b) : a = b := by
  have hsymm : Std.Symm (Function.onFun List.Disjoint f) := ⟨fun _ _ hd _ hx hy => hd hy hx⟩
  by_contra hne
  exact (List.nodup_flatMap.1 h).2.forall ha hb hne hxa hxb

namespace Variable

variable {v w u : Variable} {vs ws : List Variable} {strict : Bool}

/-- The variables that a variable is put together from. -/
def directParts : Variable → List Variable
  | object _ => []
  | code _ target => [target]
  | function _ ret params => ret :: params

mutual

/-- A variable and all its parts, parts before wholes. -/
def parts : Variable → List Variable
  | object o => [object o]
  | code o target => target.parts ++ [code o target]
  | function head ret params => ret.parts ++ partsOfAll params ++ [function head ret params]

/-- Several variables and all their parts. -/
def partsOfAll : List Variable → List Variable
  | [] => []
  | v :: vs => v.parts ++ partsOfAll vs

end

/-- The atoms of a variable's own levels. -/
def ownAtoms (v : Variable) : List AtomKey := (v.object?.map Object.atoms).getD []

theorem parts_eq (v : Variable) : v.parts = partsOfAll v.directParts ++ [v] := by
  cases v with
  | object => simp only [parts, directParts, partsOfAll, List.nil_append]
  | code => simp only [parts, directParts, partsOfAll, List.append_nil]
  | function => simp only [parts, directParts, partsOfAll]

theorem partsOfAll_eq_flatMap (vs : List Variable) : partsOfAll vs = vs.flatMap parts := by
  induction vs with
  | nil => simp only [partsOfAll, List.flatMap_nil]
  | cons v vs ih => simp only [partsOfAll, ih, List.flatMap_cons]

theorem mem_partsOfAll : w ∈ partsOfAll vs ↔ ∃ v ∈ vs, w ∈ v.parts := by
  rw [partsOfAll_eq_flatMap, List.mem_flatMap]

theorem partsOfAll_append (vs ws : List Variable) : partsOfAll (vs ++ ws) = partsOfAll vs ++ partsOfAll ws := by
  simp only [partsOfAll_eq_flatMap, List.flatMap_append]

theorem mem_parts : w ∈ v.parts ↔ (∃ u ∈ v.directParts, w ∈ u.parts) ∨ w = v := by
  rw [parts_eq, List.mem_append, mem_partsOfAll, List.mem_singleton]

theorem self_mem_parts (v : Variable) : v ∈ v.parts := mem_parts.2 (.inr rfl)

theorem mem_parts_of_mem_directParts (h : w ∈ v.directParts) : w ∈ v.parts :=
  mem_parts.2 (.inl ⟨w, h, w.self_mem_parts⟩)

/-! ### Induction on parts -/

mutual

/-- What holds of a variable if it holds of those it is put together from, holds of all. -/
theorem directParts_induction {P : Variable → Prop} (h : ∀ v, (∀ w ∈ v.directParts, P w) → P v) : ∀ v, P v
  | object _ => h _ fun _ hw => absurd hw List.not_mem_nil
  | code _ target => h _ (List.forall_mem_singleton.2 (directParts_induction h target))
  | function _ ret params =>
      h _ (List.forall_mem_cons.2 ⟨directParts_induction h ret, directParts_inductionAll h params⟩)

theorem directParts_inductionAll {P : Variable → Prop} (h : ∀ v, (∀ w ∈ v.directParts, P w) → P v) :
    ∀ vs : List Variable, ∀ v ∈ vs, P v
  | [] => fun _ hv => absurd hv List.not_mem_nil
  | v :: vs => List.forall_mem_cons.2 ⟨directParts_induction h v, directParts_inductionAll h vs⟩

end

/-! ### Parts of parts -/

theorem isInfix_parts_of_mem_partsOfAll (h : ∀ v ∈ vs, w ∈ v.parts → w.parts <:+: v.parts) (hw : w ∈ partsOfAll vs) :
    w.parts <:+: partsOfAll vs := by
  obtain ⟨v, hv, hwv⟩ := mem_partsOfAll.1 hw
  obtain ⟨before, after, rfl⟩ := List.append_of_mem hv
  refine (h v hv hwv).trans ⟨partsOfAll before, partsOfAll after, ?_⟩
  rw [partsOfAll_append, partsOfAll, List.append_assoc]

/-- The parts of a part are filed next to each other, among the parts of the whole. -/
theorem isInfix_parts : ∀ v : Variable, ∀ w ∈ v.parts, w.parts <:+: v.parts := by
  refine directParts_induction fun v ih w hw => ?_
  rw [parts_eq, List.mem_append, List.mem_singleton] at hw
  rcases hw with hw | rfl
  · have hparts := isInfix_parts_of_mem_partsOfAll (fun u hu => ih u hu w) hw
    rw [parts_eq v]
    exact hparts.trans (List.prefix_append _ _).isInfix
  · exact List.infix_refl _

theorem isInfix_partsOfAll (h : w ∈ partsOfAll vs) : w.parts <:+: partsOfAll vs :=
  isInfix_parts_of_mem_partsOfAll (fun v _ hw => isInfix_parts v w hw) h

theorem mem_parts_trans (hu : u ∈ w.parts) (hw : w ∈ v.parts) : u ∈ v.parts := (isInfix_parts v w hw).subset hu

/-- A proper part has fewer parts. -/
theorem length_parts_lt (hw : w ∈ v.parts) (hne : w ≠ v) : w.parts.length < v.parts.length := by
  rw [parts_eq v] at hw ⊢
  rcases List.mem_append.1 hw with hw | hw
  · rw [List.length_append, List.length_singleton, Nat.lt_succ_iff]
    exact (isInfix_partsOfAll hw).length_le
  · exact absurd (List.mem_singleton.1 hw) hne

/-- Neither of two variables is a part of the other. -/
def Unnested (v w : Variable) : Prop := v ∉ w.parts ∧ w ∉ v.parts

/-- Where trees have no node in common, two nodes are nested or have no part in common. -/
theorem nested_of_mem_parts_of_mem (h : ∀ u ∈ vs, ∀ v ∈ u.parts, ∀ w ∈ u.parts, ∀ x ∈ v.parts, x ∈ w.parts →
      v ∈ w.parts ∨ w ∈ v.parts) (hnodup : (partsOfAll vs).Nodup) (hv : v ∈ partsOfAll vs) (hw : w ∈ partsOfAll vs)
    {x : Variable} (hxv : x ∈ v.parts) (hxw : x ∈ w.parts) : v ∈ w.parts ∨ w ∈ v.parts := by
  obtain ⟨a, ha, hva⟩ := mem_partsOfAll.1 hv
  obtain ⟨b, hb, hwb⟩ := mem_partsOfAll.1 hw
  rw [partsOfAll_eq_flatMap] at hnodup
  obtain rfl := eq_of_nodup_flatMap hnodup ha hb (mem_parts_trans hxv hva) (mem_parts_trans hxw hwb)
  exact h a ha v hva w hwb x hxv hxw

theorem nested_of_mem_parts : ∀ u : Variable, u.parts.Nodup → ∀ v ∈ u.parts, ∀ w ∈ u.parts, ∀ x ∈ v.parts,
    x ∈ w.parts → v ∈ w.parts ∨ w ∈ v.parts := by
  refine directParts_induction fun u ih hnodup v hv w hw x hxv hxw => ?_
  have hall := hnodup
  rw [parts_eq, List.nodup_append] at hall
  have hparts : ∀ {y}, y ∈ u.parts → y = u ∨ y ∈ partsOfAll u.directParts := fun hy => by
    rw [mem_parts, ← mem_partsOfAll] at hy
    exact hy.symm
  rcases hparts hv with rfl | hv
  · exact .inr hw
  rcases hparts hw with rfl | hw
  · exact .inl (mem_parts.2 (.inl (mem_partsOfAll.1 hv)))
  refine nested_of_mem_parts_of_mem (fun a ha => ih a ha ?_) hall.1 hv hw hxv hxw
  exact ((isInfix_parts u a (mem_parts_of_mem_directParts ha)).sublist).nodup hnodup

/-- **Variables that have a part in common are nested in one another.** -/
theorem nested_of_common_part (hnodup : (partsOfAll vs).Nodup) (hv : v ∈ partsOfAll vs) (hw : w ∈ partsOfAll vs)
    {x : Variable} (hxv : x ∈ v.parts) (hxw : x ∈ w.parts) : v ∈ w.parts ∨ w ∈ v.parts := by
  refine nested_of_mem_parts_of_mem (fun u hu => nested_of_mem_parts u ?_) hnodup hv hw hxv hxw
  exact (isInfix_partsOfAll (mem_partsOfAll.2 ⟨u, hu, u.self_mem_parts⟩)).sublist.nodup hnodup

/-! ### Shapes and atoms -/

mutual

/-- Variables of one shape have equally many parts. -/
theorem length_parts_of_sameShape : ∀ v w : Variable, sameShape strict v w = true → v.parts.length = w.parts.length
  | object _, object _, _ => by simp only [parts, List.length_singleton]
  | code _ f, code _ g, h => by
      simp only [sameShape, Bool.and_eq_true] at h
      simp only [parts, List.length_append, length_parts_of_sameShape f g h.2, List.length_singleton]
  | function _ r ps, function _ r' ps', h => by
      simp only [sameShape, Bool.and_eq_true] at h
      simp only [parts, List.length_append, length_parts_of_sameShape r r' h.1, length_parts_of_sameShapes ps ps' h.2,
        List.length_singleton]
  | object _, code .., h | object _, function .., h | code .., object _, h | code .., function .., h
  | function .., object _, h | function .., code .., h => by
      simp only [sameShape, Bool.false_eq_true] at h

theorem length_parts_of_sameShapes : ∀ vs ws : List Variable, sameShapes strict vs ws = true →
    (partsOfAll vs).length = (partsOfAll ws).length
  | [], [], _ => rfl
  | v :: vs, w :: ws, h => by
      simp only [sameShapes, Bool.and_eq_true] at h
      simp only [partsOfAll, List.length_append, length_parts_of_sameShape v w h.1,
        length_parts_of_sameShapes vs ws h.2]
  | [], _ :: _, h | _ :: _, [], h => by
      simp only [sameShapes, Bool.false_eq_true] at h

end

theorem atomsOfAll_eq_flatMap (vs : List Variable) : atomsOfAll vs = vs.flatMap atoms := by
  induction vs with
  | nil => simp only [atomsOfAll, List.flatMap_nil]
  | cons v vs ih => simp only [atomsOfAll, ih, List.flatMap_cons]

/-- The atoms of a variable are its own, and those of what it is put together from. -/
theorem atoms_eq : ∀ v : Variable, v.atoms = v.ownAtoms ++ atomsOfAll v.directParts
  | object _ | code .. => by
      simp only [atoms, directParts, atomsOfAll, List.append_nil]
      rfl
  | function .. => by
      simp only [atoms, directParts, atomsOfAll]
      rfl

theorem perm_atomsOfAll (h : ∀ v ∈ vs, (v.parts.flatMap ownAtoms).Perm v.atoms) :
    ((partsOfAll vs).flatMap ownAtoms).Perm (atomsOfAll vs) := by
  rw [partsOfAll_eq_flatMap, atomsOfAll_eq_flatMap, List.flatMap_assoc]
  exact List.Perm.flatMap_left vs h

/-- The atoms of a variable are those that its parts have of their own, each in its place. -/
theorem perm_atoms : ∀ v : Variable, (v.parts.flatMap ownAtoms).Perm v.atoms := by
  refine directParts_induction fun v ih => ?_
  rw [parts_eq, atoms_eq, List.flatMap_append, List.flatMap_singleton]
  exact ((perm_atomsOfAll ih).append_right _).trans List.perm_append_comm

theorem mem_atoms_iff {key : AtomKey} : key ∈ v.atoms ↔ ∃ w ∈ v.parts, key ∈ w.ownAtoms := by
  rw [← (perm_atoms v).mem_iff, List.mem_flatMap]

end Variable

namespace System

open Variable (parts partsOfAll directParts ownAtoms Unnested)

variable {sys sys' sys'' : System} {v w : Variable} {vs ws : List Variable} {R R' : Store → Store → Prop}

/-! ### What a declaration files -/

/-- One system becomes another by filing certain variables, under the next numbers. -/
structure Appends (sys sys' : System) (vs : List Variable) : Prop where
  declared : sys'.declared = sys.declared ++ vs
  ids : vs.map Variable.id = List.range' sys.declared.length vs.length

theorem Appends.nil (h : sys'.declared = sys.declared) : sys.Appends sys' [] where
  declared := h.trans (List.append_nil _).symm
  ids := rfl

theorem Appends.trans (h : sys.Appends sys' vs) (h' : sys'.Appends sys'' ws) : sys.Appends sys'' (vs ++ ws) where
  declared := by rw [h'.declared, h.declared, List.append_assoc]
  ids := by
    have hids := h'.ids
    rw [h.declared, List.length_append] at hids
    rw [List.map_append, h.ids, hids, List.range'_append_1, List.length_append]

theorem Appends.of_declared_eq {before : System} (h : before.Appends sys' vs) (hsys : before.declared = sys.declared) :
    sys.Appends sys' vs := by
  obtain ⟨hdeclared, hids⟩ := h
  rw [hsys] at hdeclared hids
  exact ⟨hdeclared, hids⟩

theorem Appends.continues (h : sys.Appends sys' vs) : sys.Continues sys' := ⟨vs, h.declared.symm⟩

/-- Whatever is pushed comes after its parts. -/
theorem Appends.push (h : sys.Appends sys' vs) (make : VariableId → Variable) (hmake : ∀ id, (make id).id = id)
    (hparts : ∀ id, partsOfAll (make id).directParts = vs) :
    sys.Appends (sys'.push make).2 (sys'.push make).1.parts := by
  rw [Variable.parts_eq]
  refine (show partsOfAll (sys'.push make).1.directParts = vs from hparts _) ▸ h.trans ⟨rfl, ?_⟩
  show [(make sys'.declared.length).id] = _
  rw [hmake]
  rfl

mutual

/-- A type files the variable that is declared, with all its parts. -/
theorem declareType_appends (sys : System) (location : Option Location) (name : String) (bare : Bool)
    (levels : List Level) : ∀ ty, sys.Appends (declareType sys location name bare levels ty).2
      (declareType sys location name bare levels ty).1.parts
  | .pointer pointee checked => by
      simp only [declareType]
      exact (declareType_appends (sys.newLevel location _).2 location name false _ pointee).of_declared_eq rfl
  | .array element size => by
      simp only [declareType]
      exact (declareType_appends (sys.newLevel location _).2 location name false _ element).of_declared_eq rfl
  | .function ret params variadic => by
      simp only [declareType]
      have hret := declareType_appends sys location (name ++ "$ret") true [] ret
      have hparams := declareParams_appends (declareType sys location (name ++ "$ret") true [] ret).2 location
        (paramNames [] params.length) params
      have htarget := (hret.trans hparams).push
        (fun id => .function ⟨id, name, "", paramNames [] params.length, false, variadic⟩
          (declareType sys location (name ++ "$ret") true [] ret).1
          (declareParams (declareType sys location (name ++ "$ret") true [] ret).2 location
            (paramNames [] params.length) params).1)
        (fun _ => rfl) (fun _ => rfl)
      split
      · exact htarget
      · refine htarget.push _ (fun _ => rfl) fun _ => ?_
        simp only [directParts, partsOfAll, List.append_nil]
  | .void | .scalar .. | .record .. => by
      simp only [declareType]
      exact (Appends.nil rfl).push _ (fun _ => rfl) fun _ => rfl

theorem declareParams_appends (sys : System) (location : Option Location) : ∀ names tys,
    sys.Appends (declareParams sys location names tys).2 (partsOfAll (declareParams sys location names tys).1)
  | name :: names, ty :: tys => by
      simp only [declareParams, partsOfAll]
      exact (declareType_appends sys location name true [] ty).trans (declareParams_appends _ location names tys)
  | [], _ | _ :: _, [] => by
      simp only [declareParams, partsOfAll]
      exact .nil rfl

end

theorem declareFunction_appends (sys : System) (name key : String) (sig : Signature) (given : List String)
    (hasBody : Bool) (location : Option Location) :
    sys.Appends (sys.declareFunction name key sig given hasBody location).2
      (sys.declareFunction name key sig given hasBody location).1.parts :=
  ((declareType_appends sys location (name ++ "$ret") true [] sig.ret).trans
    (declareParams_appends _ location (paramNames given sig.params.length) sig.params)).push _
      (fun _ => rfl) fun _ => rfl

/-! ### Systems made by declarations -/

/-- What declarations make of the empty system, if the store may change in between as `R` says.
A type is declared `bare` by `declare`, and not by `declareObject`. -/
inductive MadeBy (R : Store → Store → Prop) : System → Prop
  | empty : MadeBy R {}
  | store {sys : System} (h : MadeBy R sys) {s : Store} (hs : R sys.store s) : MadeBy R { sys with store := s }
  | declareType {sys : System} (h : MadeBy R sys) (location : Option Location) (name : String) (bare : Bool)
      (ty : CType) : MadeBy R (declareType sys location name bare [] ty).2
  | declareFunction {sys : System} (h : MadeBy R sys) (name key : String) (sig : Signature) (given : List String)
      (hasBody : Bool) (location : Option Location) :
      MadeBy R (sys.declareFunction name key sig given hasBody location).2

/-- A system that declarations made, whatever became of the store in between. -/
def Constructed (sys : System) : Prop := MadeBy (fun _ _ => True) sys

theorem MadeBy.mono (hR : ∀ s t, R s t → R' s t) (h : MadeBy R sys) : MadeBy R' sys := by
  induction h with
  | empty => exact .empty
  | store _ hs ih => exact ih.store (hR _ _ hs)
  | declareType _ location name bare ty ih => exact ih.declareType location name bare ty
  | declareFunction _ name key sig given hasBody location ih =>
      exact ih.declareFunction name key sig given hasBody location

theorem MadeBy.constructed (h : MadeBy R sys) : sys.Constructed := h.mono fun _ _ _ => trivial

/-- The variables of a system are the nodes of some trees, numbered in the order in which they
are listed. -/
structure IsForest (sys : System) : Prop where
  trees : ∃ roots, sys.declared = partsOfAll roots
  ids : sys.declared.map Variable.id = List.range sys.declared.length

theorem IsForest.appends (h : sys.IsForest) (happends : sys.Appends sys' v.parts) : sys'.IsForest where
  trees := by
    obtain ⟨roots, hroots⟩ := h.trees
    refine ⟨roots ++ [v], ?_⟩
    rw [happends.declared, hroots, Variable.partsOfAll_append, partsOfAll, partsOfAll, List.append_nil]
  ids := by
    rw [happends.declared, List.map_append, h.ids, happends.ids, List.length_append, List.range_eq_range',
      List.range_eq_range', ← List.range'_append_1, Nat.zero_add]

/-- **Declarations make forests.** -/
theorem Constructed.isForest (h : sys.Constructed) : sys.IsForest := by
  induction h with
  | empty => exact ⟨⟨[], rfl⟩, rfl⟩
  | store _ _ ih => exact ⟨ih.trees, ih.ids⟩
  | declareType _ location name bare ty ih => exact ih.appends (declareType_appends _ location name bare [] ty)
  | declareFunction _ name key sig given hasBody location ih =>
      exact ih.appends (declareFunction_appends _ name key sig given hasBody location)

/-! ### Numbers in a forest -/

namespace IsForest

theorem nodup (h : sys.IsForest) : sys.declared.Nodup :=
  List.Nodup.of_map Variable.id (h.ids ▸ List.nodup_range)

/-- A variable is filed under its own number. -/
theorem find?_id (h : sys.IsForest) (hv : v ∈ sys.declared) : sys.find? v.id = some v := by
  obtain ⟨i, hi⟩ := List.mem_iff_getElem?.1 hv
  have hid : (sys.declared.map Variable.id)[i]? = some v.id := by rw [List.getElem?_map, hi, Option.map_some]
  rw [h.ids, List.getElem?_range (List.getElem?_eq_some_iff.1 hi).1] at hid
  rw [← Option.some.inj hid]
  exact hi

theorem eq_of_id_eq (h : sys.IsForest) (hv : v ∈ sys.declared) (hw : w ∈ sys.declared) (hid : v.id = w.id) : v = w := by
  have hfound := h.find?_id hv
  rw [hid, h.find?_id hw] at hfound
  exact (Option.some.inj hfound).symm

theorem isInfix_parts (h : sys.IsForest) (hv : v ∈ sys.declared) : v.parts <:+: sys.declared := by
  obtain ⟨roots, hroots⟩ := h.trees
  rw [hroots] at hv ⊢
  exact Variable.isInfix_partsOfAll hv

/-- **A part has a smaller number.** -/
theorem id_lt (h : sys.IsForest) (hv : v ∈ sys.declared) (hw : w ∈ v.directParts) : w.id < v.id := by
  have hsorted : (sys.declared.map Variable.id).Pairwise (· < ·) := h.ids ▸ List.pairwise_lt_range
  have hparts := hsorted.sublist ((h.isInfix_parts hv).sublist.map Variable.id)
  rw [Variable.parts_eq, List.map_append, List.pairwise_append] at hparts
  refine hparts.2.2 w.id (List.mem_map_of_mem ?_) v.id (List.mem_singleton.2 rfl)
  exact Variable.mem_partsOfAll.2 ⟨w, hw, w.self_mem_parts⟩

theorem nested_of_common_part (h : sys.IsForest) (hv : v ∈ sys.declared) (hw : w ∈ sys.declared) {x : Variable}
    (hxv : x ∈ v.parts) (hxw : x ∈ w.parts) : v ∈ w.parts ∨ w ∈ v.parts := by
  obtain ⟨roots, hroots⟩ := h.trees
  have hnodup := h.nodup
  rw [hroots] at hv hw hnodup
  exact Variable.nested_of_common_part hnodup hv hw hxv hxw

end IsForest

end System

namespace Variable

variable {sys : System} {v w f g : Variable} {vs ws : List Variable} {a b : Object}

/-- No part of one variable has the number of a part of the other. -/
def Apart (v w : Variable) : Prop := ∀ x ∈ v.parts, ∀ y ∈ w.parts, x.id ≠ y.id

theorem Apart.id_ne (h : v.Apart w) : v.id ≠ w.id := h v v.self_mem_parts w w.self_mem_parts

/-- So it is with the parts of variables that are apart. -/
theorem Apart.of_mem (h : v.Apart w) (hf : f ∈ v.parts) (hg : g ∈ w.parts) : f.Apart g :=
  fun x hx y hy => h x (mem_parts_trans hx hf) y (mem_parts_trans hy hg)

theorem Apart.target (h : (code a f).Apart (code b g)) : f.Apart g :=
  h.of_mem (mem_parts_of_mem_directParts List.mem_cons_self) (mem_parts_of_mem_directParts List.mem_cons_self)

theorem Apart.direct {head head' : FunctionHead} (h : (function head f vs).Apart (function head' g ws)) :
    f.Apart g ∧ ∀ v ∈ vs, ∀ w ∈ ws, v.Apart w :=
  ⟨h.of_mem (mem_parts_of_mem_directParts List.mem_cons_self) (mem_parts_of_mem_directParts List.mem_cons_self),
    fun _ hv _ hw => h.of_mem (mem_parts_of_mem_directParts (List.mem_cons_of_mem _ hv))
      (mem_parts_of_mem_directParts (List.mem_cons_of_mem _ hw))⟩

/-- Variables that are not nested have no number in common. -/
theorem Unnested.apart (h : v.Unnested w) (hsys : sys.IsForest) (hv : v ∈ sys.declared) (hw : w ∈ sys.declared) :
    v.Apart w := by
  intro x hx y hy hid
  obtain rfl := hsys.eq_of_id_eq ((hsys.isInfix_parts hv).subset hx) ((hsys.isInfix_parts hw).subset hy) hid
  exact (hsys.nested_of_common_part hv hw hx hy).elim h.1 h.2

/-- **Two variables of one shape are apart.**  Neither has room for the other among its parts. -/
theorem apart_of_sameShape (hsys : sys.IsForest) (hv : v ∈ sys.declared) (hw : w ∈ sys.declared) (hne : v ≠ w)
    (hshape : v.sameShape false w = true) : v.Apart w := by
  have hlength := length_parts_of_sameShape v w hshape
  refine Unnested.apart ⟨fun hpart => ?_, fun hpart => ?_⟩ hsys hv hw
  · exact (length_parts_lt hpart hne).ne hlength
  · exact (length_parts_lt hpart hne.symm).ne hlength.symm

/-- Variables of one shape that are apart, part by part: what a relation between them visits. -/
inductive Parallel : Variable → Variable → Prop
  | object {a b : Object} (hid : a.id ≠ b.id) (hlevels : sameLevels false a b = true) : Parallel (object a) (object b)
  | code {a b : Object} {f g : Variable} (hid : a.id ≠ b.id) (hlevels : sameLevels false a b = true)
      (hshape : f.sameShape false g = true) (htarget : Parallel f g) : Parallel (code a f) (code b g)
  | function {head head' : FunctionHead} {ret ret' : Variable} {params params' : List Variable}
      (hid : head.id ≠ head'.id) (hret : Parallel ret ret') (hlength : params.length = params'.length)
      (hparams : ∀ (i : Nat) (v w : Variable), params[i]? = some v → params'[i]? = some w → Parallel v w) :
      Parallel (function head ret params) (function head' ret' params')

mutual

theorem Apart.parallel : ∀ {v w : Variable}, v.Apart w → v.sameShape false w = true → v.Parallel w
  | object _, object _, h, hshape => by
      simp only [sameShape] at hshape
      exact .object h.id_ne hshape
  | code _ f, code _ g, h, hshape => by
      simp only [sameShape, Bool.and_eq_true] at hshape
      exact .code h.id_ne hshape.1 hshape.2 (Apart.parallel h.target hshape.2)
  | function _ r ps, function _ r' ps', h, hshape => by
      simp only [sameShape, Bool.and_eq_true] at hshape
      obtain ⟨hret, hparams⟩ := h.direct
      obtain ⟨hlength, hparallel⟩ := Apart.parallelAll hparams hshape.2
      exact .function h.id_ne (Apart.parallel hret hshape.1) hlength hparallel
  | object _, code .., _, hshape | object _, function .., _, hshape | code .., object _, _, hshape
  | code .., function .., _, hshape | function .., object _, _, hshape | function .., code .., _, hshape => by
      simp only [sameShape, Bool.false_eq_true] at hshape

theorem Apart.parallelAll : ∀ {vs ws : List Variable}, (∀ v ∈ vs, ∀ w ∈ ws, v.Apart w) → sameShapes false vs ws = true →
    vs.length = ws.length ∧ ∀ (i : Nat) (v w : Variable), vs[i]? = some v → ws[i]? = some w → v.Parallel w
  | [], [], _, _ => ⟨rfl, fun _ _ _ hv => nomatch hv⟩
  | v :: vs, w :: ws, h, hshape => by
      simp only [sameShapes, Bool.and_eq_true] at hshape
      obtain ⟨hlength, hrest⟩ := Apart.parallelAll
        (fun x hx y hy => h x (List.mem_cons_of_mem v hx) y (List.mem_cons_of_mem w hy)) hshape.2
      refine ⟨congrArg Nat.succ hlength, fun i x y hx hy => ?_⟩
      cases i with
      | zero =>
          obtain ⟨rfl, rfl⟩ := And.intro (Option.some.inj hx) (Option.some.inj hy)
          exact Apart.parallel (h v List.mem_cons_self w List.mem_cons_self) hshape.1
      | succ i => exact hrest i x y hx hy
  | [], _ :: _, _, hshape | _ :: _, [], _, hshape => by
      simp only [sameShapes, Bool.false_eq_true] at hshape

end

/-- **Two variables of one shape in a system are parallel.** -/
theorem parallel_of_sameShape (hsys : sys.IsForest) (hv : v ∈ sys.declared) (hw : w ∈ sys.declared) (hid : v.id ≠ w.id)
    (hshape : v.sameShape false w = true) : v.Parallel w :=
  (apart_of_sameShape hsys hv hw (fun he => hid (congrArg Variable.id he)) hshape).parallel hshape

end Variable

end PointerKinds
