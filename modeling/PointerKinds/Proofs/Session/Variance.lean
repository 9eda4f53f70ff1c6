/-
Values that flow, flow with the right variance.

A value that flows from one object into another lets the outermost level rise freely and equates
the levels below, and what is said of a pointer to a function is said of the function too.  A
function flows like its result and against its parameters, so the direction turns at every
parameter, and turns back at the parameters of a parameter.

That values flow is here a relation between two variables and the kinds of their atoms, which
knows nothing of demands; the direction that is passed along the recursion is gone from it.  Of
variables that are parallel nothing is given up on the way: whatever their depth, no atom is made
unchecked for the sake of the flow.
-/
import PointerKinds.Proofs.Session.Unification

namespace PointerKinds

open Store (Direction)

variable {E : AtomKey → Kind} {v w : Variable} {vs ws : List Variable} {a b : Object} {d : Direction}
  {why : Explanation}

/-- Values flow from one variable into another: at the levels of objects, and, if there are any,
in what they lead to; from result to result, and from the parameters of the second function to
those of the first. -/
inductive Flows (E : AtomKey → Kind) : Variable → Variable → Prop
  | object {a b : Object} (hlevels : a.FlowsInto E b) : Flows E (.object a) (.object b)
  | code {a b : Object} {f g : Variable} (hlevels : a.FlowsInto E b) (htarget : 0 < a.depth → Flows E f g) :
      Flows E (.code a f) (.code b g)
  | function {head head' : FunctionHead} {ret ret' : Variable} {params params' : List Variable}
      (hret : Flows E ret ret') (hlength : params.length = params'.length)
      (hparams : ∀ (i : Nat) (v w : Variable), params[i]? = some v → params'[i]? = some w → Flows E w v) :
      Flows E (.function head ret params) (.function head' ret' params')

namespace Demand

/-! ### What a flow demands -/

/-- A demand that makes no atom anything by itself. -/
def IsRelative : Demand → Prop
  | pin .. => False
  | join .. | flow .. => True

theorem isRelative_joins (as bs : List AtomKey) : ∀ d ∈ joins as bs, d.IsRelative := by
  intro d hd
  obtain ⟨p, -, rfl⟩ := List.mem_map.1 hd
  trivial

theorem isRelative_levels (a b : Object) : ∀ d ∈ levels a b, d.IsRelative := by
  simp only [levels]
  split
  · exact List.forall_mem_cons.2 ⟨trivial, isRelative_joins _ _⟩
  · exact fun _ hd => absurd hd List.not_mem_nil

theorem mem_allAlong {e : Demand} (h : e ∈ allAlong why d vs ws) :
    ∃ (i : Nat) (v w : Variable), vs[i]? = some v ∧ ws[i]? = some w ∧ e ∈ along why d v w := by
  induction vs generalizing ws with
  | nil => simp only [allAlong, List.not_mem_nil] at h
  | cons v vs ih =>
      cases ws with
      | nil => simp only [allAlong, List.not_mem_nil] at h
      | cons w ws =>
          simp only [allAlong, List.mem_append] at h
          rcases h with h | h
          · exact ⟨0, v, w, rfl, rfl, h⟩
          · obtain ⟨i, x, y, hx, hy, hmem⟩ := ih h
            exact ⟨i + 1, x, y, hx, hy, hmem⟩

/-- The shapes of targets are as those of what leads to them. -/
theorem along_code {f g : Variable} (hid : a.id ≠ b.id) (hlevels : Variable.sameLevels false a b = true)
    (hshape : f.sameShape false g = true) : along why d (.code a f) (.code b g) =
      if a.depth = 0 then [] else levels (d.orient a b).1 (d.orient a b).2 ++ along why d f g := by
  obtain ⟨hdepth, hbase⟩ := Variable.eq_of_sameLevels hlevels
  rw [along, if_neg hid, if_pos (Bool.and_eq_true_iff.2 ⟨decide_eq_true hbase, hshape⟩), ← hdepth, Nat.min_self]

/-- **A flow between variables that are parallel gives nothing up.** -/
theorem isRelative_along (h : v.Parallel w) : ∀ e ∈ along why d v w, e.IsRelative := by
  induction h generalizing d with
  | object hid hlevels =>
      rw [along, if_neg hid, if_pos (Variable.eq_of_sameLevels hlevels).2]
      exact isRelative_levels _ _
  | code hid hlevels hshape _ ih =>
      rw [along_code hid hlevels hshape]
      split
      · exact fun _ he => absurd he List.not_mem_nil
      · exact List.forall_mem_append.2 ⟨isRelative_levels _ _, ih⟩
  | function hid _ hlength _ ihret ihparams =>
      rw [along, if_neg hid, if_pos hlength]
      refine List.forall_mem_append.2 ⟨ihret, fun e he => ?_⟩
      obtain ⟨i, x, y, hx, hy, hmem⟩ := mem_allAlong he
      exact ihparams i x y hx hy e hmem

/-- What says nothing of a single atom, says so in formulas. -/
theorem IsRelative.ne_pin {e : Demand} (he : e.IsRelative) {f : Formula} (hf : f ∈ e.formulas) (key : AtomKey)
    (k : Kind) : f ≠ .pin key k := by
  cases e with
  | pin => exact he.elim
  | join x y =>
      rw [List.mem_singleton.1 hf]
      rcases Store.equal_join x y with heq | heq <;> rw [heq] <;> exact fun hpin => nomatch hpin
  | flow x y =>
      obtain ⟨l, -, rfl⟩ := List.mem_map.1 hf
      exact fun hpin => nomatch hpin

/-! ### What a flow comes to -/

/-- Objects of one depth flow in the direction that is demanded. -/
theorem AllMet.of_oriented (h : AllMet E (levels (d.orient a b).1 (d.orient a b).2)) (hdepth : a.depth = b.depth) :
    (d.orient a b).1.FlowsInto E (d.orient a b).2 := by
  cases d with
  | forward => exact h.of_levels hdepth
  | backward => exact h.of_levels hdepth.symm

/-- **A flow that is demanded of variables that are parallel takes place**, in the direction of the demand. -/
theorem AllMet.flows (h : v.Parallel w) (hmet : AllMet E (along why d v w)) :
    Flows E (d.orient v w).1 (d.orient v w).2 := by
  induction h generalizing d with
  | object hid hlevels =>
      obtain ⟨hdepth, hbase⟩ := Variable.eq_of_sameLevels hlevels
      rw [along, if_neg hid, if_pos hbase] at hmet
      have hflows := hmet.of_oriented hdepth
      cases d <;> exact .object hflows
  | @code a b _ _ hid hlevels hshape _ ih =>
      have hdepth := (Variable.eq_of_sameLevels hlevels).1
      rw [along_code hid hlevels hshape] at hmet
      split at hmet
      · -- Without levels there is nothing for a value to flow through.
        rename_i hzero
        have hzero' := hdepth ▸ hzero
        have hnone : ∀ {o : Object}, o.depth = 0 → ¬ 0 < o.depth := fun ho => ho ▸ Nat.lt_irrefl 0
        cases d with
        | forward => exact .code (flowsInto_of_depth_eq_zero hzero hzero') fun hpos => absurd hpos (hnone hzero)
        | backward => exact .code (flowsInto_of_depth_eq_zero hzero' hzero) fun hpos => absurd hpos (hnone hzero')
      · have hflows := hmet.left.of_oriented hdepth
        have htarget := ih hmet.right
        cases d <;> exact .code hflows fun _ => htarget
  | function hid _ hlength _ ihret ihparams =>
      rw [along, if_neg hid, if_pos hlength] at hmet
      have hret := ihret hmet.left
      have hparams := fun i x y hx hy => ihparams i x y hx hy (hmet.right.of_allAlong hx hy)
      -- What is demanded of the parameters is demanded in the other direction.
      cases d with
      | forward => exact .function hret hlength hparams
      | backward => exact .function hret hlength.symm fun i x y hx hy => hparams i y x hy hx

end Demand

namespace System

variable {sys : System} {source target : Variable}

/-- What a flow from one variable into another says, in formulas. -/
def flowFormulas (why : Explanation) (source target : Variable) : List Formula :=
  (Demand.along why .forward source target).flatMap Demand.formulas

/-- **Flows have the right variance.**  Let values flow between two variables of a system that have
one shape.  What the flow says becomes top-level, what is erased aside, and nothing else, and none of
it is that an atom has a kind, so no atom is given up.  And wherever it is in force and solving leaves
nothing unsatisfied, values do flow from the one into the other. -/
theorem flows_of_constructed (hsys : sys.Constructed) (hsource : source ∈ sys.declared)
    (htarget : target ∈ sys.declared) (hid : source.id ≠ target.id) (hshape : source.sameShape false target = true)
    (s : Store) (why : Explanation) :
    s.Enacts (s.flow why source target) (flowFormulas why source target) ∧
    (∀ id ∈ (s.flow why source target).topLevel, id ∉ s.topLevel →
      ∀ key k, (s.flow why source target).formula? id ≠ some (.pin key k)) ∧
    ∀ u : Store, (∀ f ∈ flowFormulas why source target, u.InForce f) → u.solve.1.isSolved = true →
      Flows u.solve.2.value source target := by
  have hparallel := Variable.parallel_of_sameShape hsys.isForest hsource htarget hid hshape
  have henacts : s.Enacts (s.flow why source target) (flowFormulas why source target) := by
    rw [Store.flow, Store.flowAlong_eq]
    exact s.enacts_imposeAll _
  refine ⟨henacts, fun id hid hnew key k hpin => ?_, fun u hforce hsolved => ?_⟩
  · obtain ⟨-, f, hf, hfind⟩ := ((henacts.topLevel id).1 hid).resolve_left hnew
    obtain ⟨e, he, hf⟩ := List.mem_flatMap.1 hf
    have hformula := (Store.find?_eq_some_iff.1 hfind).1
    exact (Demand.isRelative_along hparallel e he).ne_pin hf key k (Option.some.inj (hformula.symm.trans hpin))
  · have hmet : Demand.AllMet u.solve.2.value (Demand.along why .forward source target) :=
      (Store.satisfied_solve hsolved).allMet_of_inForce hforce
    exact hmet.flows hparallel

/-- Of two pointers to functions, with all their parts, the first flows into the second.  It is an
array, and so is the outermost level of the parameter of the second's target. -/
def flowingCallbacks : Store :=
  let f := (({} : System).declare "f" (callbackType none) none).1
  let g := (oneCallback.declare "g" (callbackType (some .ptr)) none).1
  let s := twoCallbacks.store.flow {} f g
  ((s.addEq (.atom 0) (.kind .arr)).2.addEq (.atom 6) (.kind .ntArr)).2

/-- The second pointer becomes an array too, and the parameter of the first one's target whatever the
other parameter is. -/
theorem flowingCallbacks_flow :
    ∃ f g, twoCallbacks.find? 3 = some f ∧ twoCallbacks.find? 7 = some g ∧
      twoCallbacks.store.Enacts (twoCallbacks.store.flow {} f g) (flowFormulas {} f g) ∧
      Flows flowingCallbacks.solve.2.value f g ∧
      (List.range 8).map flowingCallbacks.solve.2.value = [.arr, .ptr, .ntArr, .ptr, .arr, .ptr, .ntArr, .ptr] := by
  obtain ⟨hsys, hf, hg⟩ := declaredAs_twoCallbacks
  obtain ⟨henacts, -, hflows⟩ := flows_of_constructed hsys hf.mem_declared hg.mem_declared (by decide) (by decide)
    twoCallbacks.store {}
  refine ⟨_, _, rfl, rfl, henacts, hflows flowingCallbacks ?_ (by decide +kernel), by decide +kernel⟩
  intro φ hφ
  have hactive : ∀ φ ∈ flowFormulas {} (({} : System).declare "f" (callbackType none) none).1
      (oneCallback.declare "g" (callbackType (some .ptr)) none).1,
      φ ∈ flowingCallbacks.activeFormulas.map Prod.snd := by decide +kernel
  obtain ⟨c, hc, rfl⟩ := List.mem_map.1 (hactive φ hφ)
  exact ⟨c.1, hc⟩

end System

end PointerKinds
