/-
What relations between functions come to in a solution.

A function flows like its result and against its parameters, and two functions agree if their
results and their parameters do.  Either way what the functions demand is what their parts
demand, one after the other, so a solution owes to each part what it demands by itself.
-/
import PointerKinds.Proofs.Session.Numbering
import PointerKinds.Proofs.Session.Relations

namespace PointerKinds

namespace Variable

variable {vs ws : List Variable} {v w : Variable} {i : Nat}

theorem sameShape_getElem? (h : sameShapes false vs ws = true) (hv : vs[i]? = some v) (hw : ws[i]? = some w) :
    sameShape false v w = true := by
  induction vs generalizing ws i with
  | nil => exact nomatch hv
  | cons v' vs ih =>
      cases ws with
      | nil => exact nomatch hw
      | cons w' ws =>
          simp only [sameShapes, Bool.and_eq_true] at h
          cases i with
          | zero =>
              obtain ⟨rfl, rfl⟩ := And.intro (Option.some.inj hv) (Option.some.inj hw)
              exact h.1
          | succ i => exact ih h.2 hv hw

/-- What has the shape of an object is one. -/
theorem exists_object_of_sameShape {strict : Bool} {a : Object} (h : sameShape strict v w = true)
    (hv : v.object? = some a) : ∃ b, w.object? = some b := by
  cases w with
  | object b => exact ⟨b, rfl⟩
  | code b g => exact ⟨b, rfl⟩
  | function =>
      cases v with
      | function => exact nomatch hv
      | object | code => simp only [sameShape, Bool.false_eq_true] at h

/-! ### Functions -/

variable {E : AtomKey → Kind} {f g : Variable}

/-- What goes to one function goes to the other: what is passed to the first reaches the second,
and what the second returns comes back through the first. -/
inductive Reaches (E : AtomKey → Kind) : Variable → Variable → Prop
  | intro {head head' : FunctionHead} {ret ret' : Variable} {params params' : List Variable}
      (hshape : sameShape false (.function head ret params) (.function head' ret' params') = true)
      (hargument : ∀ (i : Nat) v w a b, params[i]? = some v → params'[i]? = some w → v.object? = some a →
        w.object? = some b → a.FlowsInto E b)
      (hresult : ∀ a b, ret'.object? = some a → ret.object? = some b → a.FlowsInto E b) :
      Reaches E (.function head ret params) (.function head' ret' params')

theorem Reaches.refl (E : AtomKey → Kind) (hf : f.isFunction = true) : Reaches E f f := by
  cases f with
  | object | code => exact nomatch hf
  | function head ret params =>
      refine .intro (sameShape_refl false _) (fun i v w a b hv hw ha hb => ?_) fun a b ha hb => ?_
      · obtain rfl := Option.some.inj (hv.symm.trans hw)
        rw [Option.some.inj (ha.symm.trans hb)]
        exact .refl E b
      · rw [Option.some.inj (ha.symm.trans hb)]
        exact .refl E b

end Variable

namespace Demand

variable {E : AtomKey → Kind} {why : Explanation} {sys : System} {f g : Variable}

/-- A function that flows into another is reached from it. -/
theorem AllMet.reaches_of_along (h : AllMet E (along why .forward f g)) (hf : sys.Files f) (hg : sys.Files g)
    (hfunction : f.isFunction = true) (hshape : f.sameShape false g = true) : g.Reaches E f := by
  by_cases hid : f.id = g.id
  · rw [← hf.eq_of_id_eq hg hid]
    exact .refl E hfunction
  cases hf with
  | object | code => cases hfunction
  | @function head ret params _ hret hparams =>
      cases hg with
      | object | code => simp only [Variable.sameShape, Bool.false_eq_true] at hshape
      | @function head' ret' params' _ hret' hparams' =>
          have hback := hshape
          rw [Variable.sameShape_comm] at hback
          simp only [Variable.sameShape, Bool.and_eq_true] at hshape
          simp only [Variable.id] at hid
          rw [along, if_neg hid, if_pos (Variable.length_eq_of_sameShapes hshape.2)] at h
          -- The parameters flow backward, from the second function into the first.
          refine .intro hback (fun i v w a b hv hw ha hb => ?_) fun a b ha hb => ?_
          · have hw' := hparams w (List.mem_of_getElem? hw)
            have hv' := hparams' v (List.mem_of_getElem? hv)
            exact (h.right.of_allAlong hw hv).of_along (Variable.sameShape_getElem? hshape.2 hw hv)
              (hw'.eq_of_id_eq hv') hb ha
          · exact h.left.of_along hshape.1 (hret.eq_of_id_eq hret') ha hb

/-- A function that agrees with another reaches it. -/
theorem AllMet.reaches_of_agree (h : AllMet E (agree why f g)) (hf : sys.Files f) (hg : sys.Files g)
    (hfunction : f.isFunction = true) (hshape : f.sameShape false g = true) : f.Reaches E g := by
  by_cases hid : f.id = g.id
  · rw [← hf.eq_of_id_eq hg hid]
    exact .refl E hfunction
  cases hf with
  | object | code => cases hfunction
  | @function head ret params _ hret hparams =>
      cases hg with
      | object | code => simp only [Variable.sameShape, Bool.false_eq_true] at hshape
      | @function head' ret' params' _ hret' hparams' =>
          have hparts := hshape
          simp only [Variable.sameShape, Bool.and_eq_true] at hparts
          simp only [Variable.id] at hid
          rw [agree, if_neg hid, if_pos (Variable.length_eq_of_sameShapes hparts.2)] at h
          refine .intro hshape (fun i v w a b hv hw ha hb => ?_) fun a b ha hb => ?_
          · have hv' := hparams v (List.mem_of_getElem? hv)
            have hw' := hparams' w (List.mem_of_getElem? hw)
            exact Object.flowsInto_of_map_eq ((h.right.of_agreeAll hv hw).of_agree
              (Variable.sameShape_getElem? hparts.2 hv hw) (hv'.eq_of_id_eq hw') ha hb)
          · exact Object.flowsInto_of_map_eq (h.left.of_agree hparts.1 (hret.eq_of_id_eq hret') hb ha).symm

end Demand

end PointerKinds
