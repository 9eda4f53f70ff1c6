/-
Comparing variables by number.

A variable carries its parts with it, but whoever holds a system of variables can just as well go by
numbers: look two variables up, compare what they are by themselves, and go on with the numbers of
their parts, pair by pair.  Nothing in that shows that it ends.  It does because a part was filed
before what it is a part of, so that both numbers get smaller with every step; the smaller of the two
bounds how deep the comparison goes, and what it finds is whether the variables have one shape.
-/
import PointerKinds.Proofs.Variable.Parts
import PointerKinds.Proofs.Variable.Shape

namespace PointerKinds

namespace Variable

variable {strict : Bool} {v w : Variable}

/-- Whether two variables can have one shape, as far as shows without looking at their parts. -/
def alike (strict : Bool) : Variable → Variable → Bool
  | object a, object b => sameLevels strict a b
  | code a _, code b _ => sameLevels strict a b
  | function _ _ ps, function _ _ ps' => ps.length == ps'.length
  | _, _ => false

theorem length_directParts_of_alike (h : v.alike strict w = true) : v.directParts.length = w.directParts.length := by
  cases v <;> cases w <;> simp only [alike, Bool.false_eq_true, beq_iff_eq] at h
  case object.object => rfl
  case code.code => rfl
  case function.function => rw [directParts, directParts, List.length_cons, List.length_cons, h]

/-- One shape is being alike, and having parts of one shape. -/
theorem sameShape_eq (strict : Bool) (v w : Variable) :
    v.sameShape strict w = (v.alike strict w && sameShapes strict v.directParts w.directParts) := by
  cases v <;> cases w <;> simp only [sameShape, alike, directParts, sameShapes, Bool.false_and, Bool.and_true]
  case function.function ps _ _ ps' =>
    -- Parameters of one shape are equally many to begin with.
    cases hps : sameShapes strict ps ps' with
    | false => simp only [Bool.and_false]
    | true => rw [beq_iff_eq.2 (length_eq_of_sameShapes hps), Bool.true_and]

end Variable

namespace System

variable {sys : System} {strict : Bool} {v w : Variable} {vs ws : List Variable}

/-- Asks a question of two lists pair by pair, until the answer is no or does not come. -/
def askAll (ask : VariableId → VariableId → Option Bool) : List VariableId → List VariableId → Option Bool
  | a :: as, b :: bs => (ask a b).bind fun yes => if yes then askAll ask as bs else some false
  | _, _ => some true

/-- Compares the variables with two numbers, going down to some depth by the numbers of their parts.
There is no answer if that is not deep enough, or if there are no such variables. -/
def compareWithin (sys : System) (strict : Bool) : Nat → VariableId → VariableId → Option Bool
  | 0, _, _ => none
  | depth + 1, a, b =>
    (sys.find? a).bind fun v => (sys.find? b).bind fun w =>
      if v.alike strict w then
        askAll (sys.compareWithin strict depth) (v.directParts.map Variable.id) (w.directParts.map Variable.id)
      else some false

/-- Where every pair is told whether it has one shape, so are the lists. -/
theorem askAll_eq {ask : VariableId → VariableId → Option Bool} (hlength : vs.length = ws.length)
    (hask : ∀ v ∈ vs, ∀ w ∈ ws, ask v.id w.id = some (v.sameShape strict w)) :
    askAll ask (vs.map Variable.id) (ws.map Variable.id) = some (Variable.sameShapes strict vs ws) := by
  induction vs generalizing ws with
  | nil =>
      obtain rfl := List.length_eq_zero_iff.1 hlength.symm
      rfl
  | cons v vs ih =>
      cases ws with
      | nil => exact absurd hlength (Nat.succ_ne_zero _)
      | cons w ws =>
          have hrest := ih (Nat.succ.inj hlength) fun x hx y hy =>
            hask x (List.mem_cons_of_mem v hx) y (List.mem_cons_of_mem w hy)
          rw [List.map_cons, List.map_cons, askAll, hask v List.mem_cons_self w List.mem_cons_self, Option.bind_some,
            hrest, Variable.sameShapes]
          cases v.sameShape strict w <;> rfl

/-- **Comparing by number ends, and finds whether there is one shape.**  The smaller number bounds the depth. -/
theorem IsForest.compareWithin_eq (h : sys.IsForest) {depth : Nat} (hv : v ∈ sys.declared) (hw : w ∈ sys.declared)
    (hdepth : min v.id w.id < depth) : sys.compareWithin strict depth v.id w.id = some (v.sameShape strict w) := by
  induction depth generalizing v w with
  | zero => exact absurd hdepth (Nat.not_lt_zero _)
  | succ depth ih =>
      rw [compareWithin, h.find?_id hv, h.find?_id hw, Option.bind_some, Option.bind_some, Variable.sameShape_eq]
      cases halike : v.alike strict w with
      | false => rfl
      | true =>
          have hpart : ∀ {u x : Variable}, u ∈ sys.declared → x ∈ u.directParts → x ∈ sys.declared ∧ x.id < u.id :=
            fun hu hx => ⟨(h.isInfix_parts hu).subset (Variable.mem_parts_of_mem_directParts hx), h.id_lt hu hx⟩
          rw [if_pos rfl, Bool.true_and]
          refine askAll_eq (Variable.length_directParts_of_alike halike) fun x hx y hy => ?_
          obtain ⟨hx, hxv⟩ := hpart hv hx
          obtain ⟨hy, hyw⟩ := hpart hw hy
          have hless : min x.id y.id < min v.id w.id :=
            Nat.lt_min.2 ⟨Nat.lt_of_le_of_lt (Nat.min_le_left ..) hxv, Nat.lt_of_le_of_lt (Nat.min_le_right ..) hyw⟩
          exact ih hx hy (Nat.lt_of_lt_of_le hless (Nat.le_of_lt_succ hdepth))

/-- A variable is found under its own number only. -/
theorem IsForest.of_find? (h : sys.IsForest) {a : VariableId} (hv : sys.find? a = some v) :
    v ∈ sys.declared ∧ v.id = a := by
  have hids : (sys.declared.map Variable.id)[a]? = some v.id := by rw [List.getElem?_map, ← find?, hv, Option.map_some]
  rw [h.ids, List.getElem?_range (List.getElem?_eq_some_iff.1 hv).1] at hids
  exact ⟨List.mem_of_getElem? hv, (Option.some.inj hids).symm⟩

/-- **Structural equality is an equivalence.**  In every system that declarations made, comparing any two
variables by number ends, no deeper than the smaller number, and finds whether they have one shape.
Every variable has the shape of itself, shapes may be compared either way round and chained, and
variables that were declared alike at every level have one shape too if that is not asked for.  What
is compared is their outlines. -/
theorem structural_equivalence (hsys : sys.Constructed) (strict : Bool) :
    (∀ a b v w, sys.find? a = some v → sys.find? b = some w → ∀ depth, min a b < depth →
      sys.compareWithin strict depth a b = some (v.sameShape strict w)) ∧
    Equivalence (fun v w : Variable => v.sameShape strict w = true) ∧
    (∀ v w : Variable, v.sameShape true w = true → v.sameShape strict w = true) ∧
    ∀ v w : Variable, v.sameShape strict w = true ↔ v.outline strict = w.outline strict := by
  refine ⟨fun a b v w hv hw depth hdepth => ?_, ⟨Variable.sameShape_refl strict, fun {v w} h => ?_,
    Variable.sameShape_trans⟩, fun v w => Variable.sameShape_of_strict strict, Variable.sameShape_iff strict⟩
  · obtain ⟨hvmem, rfl⟩ := hsys.isForest.of_find? hv
    obtain ⟨hwmem, rfl⟩ := hsys.isForest.of_find? hw
    exact hsys.isForest.compareWithin_eq hvmem hwmem hdepth
  · rw [Variable.sameShape_comm]
    exact h

/-- The type of a function from integers, wherever these are kept. -/
def takingIntegers (parameter : CType → CType) : CType :=
  .function (.scalar "int" .integer) [parameter (.scalar "int" .integer)] false

/-- A function that is given an integer by a pointer, and one that is given three in an array. -/
def twoFunctions : System :=
  ((({} : System).declare "f" (takingIntegers (.pointer · none)) none).2.declare "g"
    (takingIntegers (.array · (some 3))) none).2

theorem constructed_twoFunctions : twoFunctions.Constructed :=
  (MadeBy.empty.declareType none "f" true (takingIntegers (.pointer · none))).declareType none "g" true
    (takingIntegers (.array · (some 3)))

/-- They have one shape, unless it matters how the parameters were declared.  Either way two steps down
from the functions are enough. -/
theorem twoFunctions_compared : twoFunctions.Constructed ∧
    (∃ f g, twoFunctions.find? 2 = some f ∧ twoFunctions.find? 5 = some g ∧ min 2 5 < 3) ∧
    twoFunctions.compareWithin false 3 2 5 = some true ∧ twoFunctions.compareWithin true 3 2 5 = some false := by
  obtain ⟨hlax, -⟩ := structural_equivalence constructed_twoFunctions false
  obtain ⟨hstrict, -⟩ := structural_equivalence constructed_twoFunctions true
  refine ⟨constructed_twoFunctions, ⟨_, _, rfl, rfl, by decide⟩, ?_, ?_⟩
  · rw [hlax 2 5 _ _ rfl rfl 3 (by decide)]
    decide
  · rw [hstrict 2 5 _ _ rfl rfl 3 (by decide)]
    decide

end System

end PointerKinds
