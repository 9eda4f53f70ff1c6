/-
What relations between variables come to in a solution.

A relation ends in demands on atoms, imposed on one store after the other.  What is imposed
stays in force, so kinds that satisfy the last store meet every demand; and so what a relation
comes to can be read off the list of its demands.  The number of a variable has to stand for
the variable here, for a relation between variables of one number demands nothing.
-/
import PointerKinds.Proofs.Session.Building
import PointerKinds.Proofs.Solver.Agreement
import PointerKinds.Proofs.Variable.Shape

namespace PointerKinds

/-! ### Shape -/

namespace Variable

variable {strict : Bool} {a b : Object}

theorem eq_of_sameLevels (h : sameLevels strict a b = true) : a.depth = b.depth ∧ a.base = b.base := by
  unfold sameLevels at h
  simp only [Bool.and_eq_true, beq_iff_eq] at h
  exact h.1

/-- Objects of one shape have the same levels. -/
theorem sameLevels_of_sameShape {v w : Variable} (h : v.sameShape strict w = true)
    (hv : v.object? = some a) (hw : w.object? = some b) : sameLevels strict a b = true := by
  cases v with
  | function => exact nomatch hv
  | object =>
      cases w <;> simp only [sameShape, Bool.false_eq_true] at h
      obtain ⟨rfl, rfl⟩ := And.intro (Option.some.inj hv) (Option.some.inj hw)
      exact h
  | code =>
      cases w <;> simp only [sameShape, Bool.and_eq_true, Bool.false_eq_true] at h
      obtain ⟨rfl, rfl⟩ := And.intro (Option.some.inj hv) (Option.some.inj hw)
      exact h.1

theorem isFunction_of_object? {v : Variable} (hv : v.object? = some a) : v.isFunction = false := by
  cases v with
  | object | code => rfl
  | function => cases hv

/-- The outermost atom of an object is an outermost atom of its variable. -/
theorem mem_outerAtoms {v : Variable} {x : AtomKey} (hv : v.object? = some a) (hx : x ∈ a.outer?) :
    x ∈ v.outerAtoms := by
  cases v with
  | object | code =>
      obtain rfl := Option.some.inj hv
      simp only [outerAtoms]
      exact Option.mem_toList.2 hx
  | function => cases hv

end Variable

/-! ### What two objects can be to each other -/

namespace Object

/-- The outermost level, if there is one, is unchecked. -/
def IsUnchecked (E : AtomKey → Kind) (o : Object) : Prop := ∀ x ∈ o.outer?, E x = .wild

/-- Values can go from one object into another: the kind of the outermost level may rise,
and the levels below are alike. -/
def FlowsInto (E : AtomKey → Kind) (source target : Object) : Prop :=
  (∀ x ∈ source.outer?, ∀ y ∈ target.outer?, E x ≤ E y) ∧
    source.atoms.tail.map E = target.atoms.tail.map E

/-- The levels that two objects have in common, from the outside in, are alike. -/
def AgreesWith (E : AtomKey → Kind) (a b : Object) : Prop :=
  ∀ (i : Nat) x y, a.atoms[i]? = some x → b.atoms[i]? = some y → E x = E y

theorem FlowsInto.refl (E : AtomKey → Kind) (a : Object) : a.FlowsInto E a := by
  refine ⟨fun x hx y hy => ?_, rfl⟩
  rw [Option.mem_unique hx hy]

/-- Objects of one depth pass values on. -/
theorem FlowsInto.trans {E : AtomKey → Kind} {a b c : Object} (hdepth : a.depth = b.depth)
    (h : a.FlowsInto E b) (h' : b.FlowsInto E c) : a.FlowsInto E c := by
  refine ⟨fun x hx z hz => ?_, h.2.trans h'.2⟩
  have hlength : a.atoms.length = b.atoms.length := by
    simpa only [atoms, depth, List.length_map] using hdepth
  unfold outer? at hx
  cases hb : b.atoms with
  | nil =>
      rw [hb] at hlength
      rw [List.length_eq_zero_iff.1 hlength] at hx
      cases hx
  | cons y ys =>
      have hy : y ∈ b.outer? := by
        unfold outer?
        rw [hb]
        rfl
      exact (h.1 x hx y hy).trans (h'.1 y hy z hz)

/-- Objects all of whose levels are alike pass values to each other. -/
theorem flowsInto_of_map_eq {E : AtomKey → Kind} {a b : Object} (h : a.atoms.map E = b.atoms.map E) :
    a.FlowsInto E b := by
  refine ⟨fun x hx y hy => le_of_eq ?_, ?_⟩
  · have hhead := congrArg List.head? h
    rw [List.head?_map, List.head?_map] at hhead
    unfold outer? at hx hy
    rw [Option.mem_def.1 hx, Option.mem_def.1 hy] at hhead
    exact Option.some.inj hhead
  · rw [List.map_tail, List.map_tail, h]

end Object

/-! ### Demands that are met -/

namespace Demand

/-- What kinds owe to a demand. -/
def Met (E : AtomKey → Kind) : Demand → Prop
  | .pin key k _ => k ≤ E key
  | .join a b => E a = E b
  | .flow source target => E source ≤ E target

/-- What kinds owe to several demands. -/
def AllMet (E : AtomKey → Kind) (l : List Demand) : Prop := ∀ d ∈ l, d.Met E

/-- What a demand says, in formulas. -/
def formulas : Demand → List Formula
  | pin key k _ => [.pin key k]
  | join a b => [.equal (.atom a) (.atom b)]
  | flow source target => Store.flowingKinds.map (.flow source target)

end Demand

namespace Store

open Demand (AllMet)

variable {s t : Store} {E : AtomKey → Kind} {d : Demand} {l : List Demand}

/-- What satisfies a store satisfies the stores that led to it. -/
theorem Satisfied.of_grows (h : t.Satisfied E) (hs : s.Fresh) (hgrows : s.Grows t) : s.Satisfied E where
  pin x k hf := h.pin x k (hgrows.inForce hs hf)
  join a b hjoined := h.join a b (hjoined.imp (hgrows.inForce hs) (hgrows.inForce hs))
  flow a b k hf := h.flow a b k (hgrows.inForce hs hf)

/-- What satisfies a store meets a demand that is in force.  The three kinds that flow are all there
are above a plain pointer. -/
theorem Satisfied.met_of_inForce (h : s.Satisfied E) (hd : ∀ f ∈ d.formulas, s.InForce f) : d.Met E := by
  cases d with
  | pin key k why => exact h.pin key k (hd _ (List.mem_singleton.2 rfl))
  | join a b =>
      have hforce := hd _ (List.mem_singleton.2 rfl)
      rcases equal_join a b with he | he <;> rw [he] at hforce
      · exact h.join a b (.inl hforce)
      · exact h.join a b (.inr hforce)
  | flow a b =>
      have hforce : ∀ k ∈ flowingKinds, s.InForce (.flow a b k) := fun k hk => hd _ (List.mem_map_of_mem hk)
      show E a ≤ E b
      cases ha : E a with
      | ptr => exact Kind.ptr_le _
      | arr => exact h.flow a b .arr (hforce _ (by decide)) ha
      | ntArr => exact h.flow a b .ntArr (hforce _ (by decide)) ha
      | wild => exact h.flow a b .wild (hforce _ (by decide)) ha

/-- What satisfies a store meets the demand that was imposed last. -/
theorem Satisfied.met (hs : s.Fresh) (h : (s.impose d).Satisfied E) : d.Met E := by
  refine h.met_of_inForce ?_
  cases d with
  | pin key k why => exact List.forall_mem_singleton.2 (((hs.imposes_pin key k why).inForce _).2 (.inr rfl))
  | join a b => exact List.forall_mem_singleton.2 (((hs.imposes_join a b {}).inForce _).2 (.inr rfl))
  | flow a b =>
      obtain ⟨-, -, hforce⟩ := hs.imposes_flow a b
      simp only [Demand.formulas, flowingKinds, List.forall_mem_map, List.forall_mem_cons]
      exact ⟨(hforce _).2 (.inr (.inl rfl)), (hforce _).2 (.inr (.inr (.inl rfl))),
        (hforce _).2 (.inr (.inr (.inr rfl))), fun _ hk => absurd hk List.not_mem_nil⟩

/-- **What satisfies a store meets all demands that were imposed.** -/
theorem Satisfied.allMet (hs : s.Fresh) (h : (s.imposeAll l).Satisfied E) : AllMet E l := by
  induction l generalizing s with
  | nil => exact fun d hd => absurd hd List.not_mem_nil
  | cons d rest ih =>
      have hd : (s.impose d).Fresh := (Grows.refl.impose d).fresh hs
      refine List.forall_mem_cons.2 ⟨?_, ih hd h⟩
      exact (h.of_grows hd (Grows.refl.imposeAll rest)).met hs

end Store

namespace Demand

open Store (Direction)

variable {E : AtomKey → Kind} {why : Explanation} {k : Kind} {v w : Variable} {a b : Object} {l l' : List Demand}
  {d : Direction}

theorem AllMet.left (h : AllMet E (l ++ l')) : AllMet E l := fun d hd => h d (List.mem_append_left l' hd)

theorem AllMet.right (h : AllMet E (l ++ l')) : AllMet E l' := fun d hd => h d (List.mem_append_right l hd)

theorem AllMet.of_flatMap {α : Type} {demands : α → List Demand} {as : List α} {a : α}
    (h : AllMet E (as.flatMap demands)) (ha : a ∈ as) : AllMet E (demands a) :=
  fun d hd => h d (List.mem_flatMap.2 ⟨a, ha, hd⟩)

/-! ### Atoms -/

theorem AllMet.of_outer (h : AllMet E (outer why v)) : ∀ x ∈ v.outerAtoms, E x = .wild :=
  fun _ hx => le_antisymm (Kind.le_wild _) (h _ (List.mem_map_of_mem hx))

theorem AllMet.of_throughout (h : AllMet E (throughout why k v)) : ∀ x ∈ v.atoms, k ≤ E x :=
  fun _ hx => h _ (List.mem_map_of_mem hx)

theorem AllMet.of_joins {as bs : List AtomKey} (h : AllMet E (joins as bs)) {p : AtomKey × AtomKey}
    (hp : p ∈ as.zip bs) : E p.1 = E p.2 :=
  h _ (List.mem_map_of_mem hp)

/-- Two variables that are unchecked, where they are objects. -/
theorem AllMet.unchecked_pair (h : AllMet E (outerAll why [v, w])) (hv : v.object? = some a)
    (hw : w.object? = some b) : a.IsUnchecked E ∧ b.IsUnchecked E := by
  have hpair : ∀ u ∈ [v, w], ∀ x ∈ u.outerAtoms, E x = .wild := fun u hu => (h.of_flatMap hu).of_outer
  exact ⟨fun x hx => hpair v (by simp) x (Variable.mem_outerAtoms hv hx),
    fun x hx => hpair w (by simp) x (Variable.mem_outerAtoms hw hx)⟩

theorem AllMet.agreesWith (h : AllMet E (joins a.atoms b.atoms)) : a.AgreesWith E b := by
  intro i x y hx hy
  refine h.of_joins (p := (x, y)) (List.mem_iff_getElem?.2 ⟨i, ?_⟩)
  rw [List.getElem?_zip_eq_some]
  exact ⟨hx, hy⟩

/-- Atoms that are equal pairwise are alike, if there are as many. -/
theorem AllMet.map_eq {as bs : List AtomKey} (h : AllMet E (joins as bs)) (hlength : as.length = bs.length) :
    as.map E = bs.map E := by
  refine List.ext_getElem (by simpa using hlength) fun i hi hi' => ?_
  rw [List.getElem_map, List.getElem_map]
  refine h.of_joins (List.mem_iff_getElem.2 ⟨i, ?_, List.getElem_zip⟩)
  rw [List.length_map] at hi hi'
  rw [List.length_zip]
  exact lt_min hi hi'

/-! ### Objects -/

theorem length_atoms (a : Object) : a.atoms.length = a.depth := List.length_map _

/-- Objects of one depth are aligned at all levels. -/
theorem AllMet.of_levels (h : AllMet E (levels a b)) (hdepth : a.depth = b.depth) : a.FlowsInto E b := by
  have hlength : a.atoms.length = b.atoms.length := by rw [length_atoms, length_atoms, hdepth]
  simp only [levels, hdepth, Nat.min_self, Nat.sub_self, List.drop_zero] at h
  unfold Object.FlowsInto Object.outer?
  cases ha : a.atoms with
  | nil =>
      rw [ha] at hlength
      rw [List.length_eq_zero_iff.1 hlength.symm]
      exact ⟨by simp, rfl⟩
  | cons x xs =>
      cases hb : b.atoms with
      | nil =>
          rw [ha, hb] at hlength
          exact absurd hlength (Nat.succ_ne_zero _)
      | cons y ys =>
          simp only [ha, hb, List.length_cons, Nat.add_right_cancel_iff] at h hlength
          obtain ⟨hhead, htail⟩ := List.forall_mem_cons.1 h
          refine ⟨fun x' hx y' hy => ?_, AllMet.map_eq htail hlength⟩
          rw [List.head?_cons, Option.mem_some_iff] at hx hy
          rw [← hx, ← hy]
          exact hhead

/-- Objects without levels have nothing to pass on. -/
theorem flowsInto_of_depth_eq_zero (ha : a.depth = 0) (hb : b.depth = 0) : a.FlowsInto E b := by
  rw [← length_atoms, List.length_eq_zero_iff] at ha hb
  refine Object.flowsInto_of_map_eq ?_
  rw [ha, hb]

/-- A flow between objects of one shape. -/
theorem AllMet.of_along (h : AllMet E (along why d v w)) (hshape : v.sameShape false w = true)
    (hid : v.id = w.id → v = w) (hv : v.object? = some a) (hw : w.object? = some b) :
    (d.orient a b).1.FlowsInto E (d.orient a b).2 := by
  -- Nothing is demanded of variables of one number, which is harmless only if they are the same.
  by_cases hne : v.id = w.id
  · obtain rfl := hid hne
    rw [Option.some.inj (hv.symm.trans hw)]
    cases d <;> exact .refl E b
  obtain ⟨hdepth, hbase⟩ := Variable.eq_of_sameLevels (Variable.sameLevels_of_sameShape hshape hv hw)
  have hdepths : (d.orient a b).1.depth = (d.orient a b).2.depth := by
    cases d with
    | forward => exact hdepth
    | backward => exact hdepth.symm
  cases v with
  | function => cases hv
  | object a' =>
      cases w with
      | code | function => simp only [Variable.sameShape, Bool.false_eq_true] at hshape
      | object b' =>
          obtain ⟨rfl, rfl⟩ := And.intro (Option.some.inj hv) (Option.some.inj hw)
          simp only [Variable.id] at hne
          rw [along, if_neg hne, if_pos hbase] at h
          exact h.of_levels hdepths
  | code a' f =>
      cases w with
      | object | function => simp only [Variable.sameShape, Bool.false_eq_true] at hshape
      | code b' g =>
          obtain ⟨rfl, rfl⟩ := And.intro (Option.some.inj hv) (Option.some.inj hw)
          simp only [Variable.id] at hne
          have hcode : (decide (a'.base = b'.base) && f.sameShape false g) = true := by
            simp only [Variable.sameShape, Bool.and_eq_true] at hshape
            rw [Bool.and_eq_true, decide_eq_true_eq]
            exact ⟨hbase, hshape.2⟩
          rw [along, if_neg hne, if_pos hcode] at h
          split at h
          · rename_i hzero
            rw [hdepth, Nat.min_self] at hzero
            cases d with
            | forward => exact flowsInto_of_depth_eq_zero (hdepth.trans hzero) hzero
            | backward => exact flowsInto_of_depth_eq_zero hzero (hdepth.trans hzero)
          · exact h.left.of_levels hdepths

/-- Variables of different shapes, of which one at least is an object, are given up instead of being
made to agree. -/
theorem agree_eq_outerAll (why : Explanation) (hshape : v.sameShape false w = false)
    (hid : v.id = w.id → v = w) (hobject : v.isFunction = false ∨ w.isFunction = false) :
    agree why v w = outerAll why [v, w] := by
  have hne : v.id ≠ w.id := by
    intro he
    rw [hid he, Variable.sameShape_refl] at hshape
    cases hshape
  cases v with
  | function =>
      cases w with
      | function => rcases hobject with h | h <;> cases h
      | object | code => simp only [agree]
  | object a' =>
      cases w with
      | function | code => simp only [agree]
      | object b' =>
          simp only [Variable.sameShape] at hshape
          simp only [Variable.id] at hne
          rw [agree, if_neg hne, hshape, if_neg Bool.false_ne_true]
  | code a' f =>
      cases w with
      | function | object => simp only [agree]
      | code b' g =>
          simp only [Variable.sameShape] at hshape
          simp only [Variable.id] at hne
          rw [agree, if_neg hne, hshape, if_neg Bool.false_ne_true]

/-- Objects of one shape that agree are alike at all levels. -/
theorem AllMet.of_agree (h : AllMet E (agree why v w)) (hshape : v.sameShape false w = true)
    (hid : v.id = w.id → v = w) (hv : v.object? = some a) (hw : w.object? = some b) :
    a.atoms.map E = b.atoms.map E := by
  by_cases hne : v.id = w.id
  · obtain rfl := hid hne
    rw [Option.some.inj (hv.symm.trans hw)]
  have hdepth := (Variable.eq_of_sameLevels (Variable.sameLevels_of_sameShape hshape hv hw)).1
  have hlength : a.atoms.length = b.atoms.length := by rw [length_atoms, length_atoms, hdepth]
  cases v with
  | function => cases hv
  | object a' =>
      cases w with
      | code | function => simp only [Variable.sameShape, Bool.false_eq_true] at hshape
      | object b' =>
          obtain ⟨rfl, rfl⟩ := And.intro (Option.some.inj hv) (Option.some.inj hw)
          simp only [Variable.id] at hne
          simp only [Variable.sameShape] at hshape
          rw [agree, if_neg hne, if_pos hshape] at h
          exact h.map_eq hlength
  | code a' f =>
      cases w with
      | object | function => simp only [Variable.sameShape, Bool.false_eq_true] at hshape
      | code b' g =>
          obtain ⟨rfl, rfl⟩ := And.intro (Option.some.inj hv) (Option.some.inj hw)
          simp only [Variable.id] at hne
          simp only [Variable.sameShape] at hshape
          rw [agree, if_neg hne, if_pos hshape] at h
          exact h.left.map_eq hlength

/-- A cast of objects: a safe one makes their levels agree, from the outside in. -/
theorem AllMet.of_cast {location : Option Location} {safe : Bool} (h : AllMet E (cast location safe v w))
    (hv : v.object? = some a) (hw : w.object? = some b) :
    if safe then a.AgreesWith E b else a.IsUnchecked E ∧ b.IsUnchecked E := by
  cases safe with
  | false => exact AllMet.unchecked_pair h hv hw
  | true =>
      simp only [cast, if_true] at h
      show a.AgreesWith E b
      cases v with
      | function => cases hv
      | object =>
          cases w with
          | function => cases hw
          | object | code =>
              obtain ⟨rfl, rfl⟩ := And.intro (Option.some.inj hv) (Option.some.inj hw)
              exact h.agreesWith
      | code a' f =>
          cases w with
          | function => cases hw
          | object =>
              obtain ⟨rfl, rfl⟩ := And.intro (Option.some.inj hv) (Option.some.inj hw)
              exact h.agreesWith
          | code b' g =>
              obtain ⟨rfl, rfl⟩ := And.intro (Option.some.inj hv) (Option.some.inj hw)
              exact h.left.agreesWith

/-! ### Functions and calls -/

variable {vs ws : List Variable} {i : Nat}

theorem AllMet.of_allAlong (h : AllMet E (allAlong why d vs ws)) (hv : vs[i]? = some v) (hw : ws[i]? = some w) :
    AllMet E (along why d v w) := by
  induction vs generalizing ws i with
  | nil => cases hv
  | cons v' vs ih =>
      cases ws with
      | nil => cases hw
      | cons w' ws =>
          simp only [allAlong] at h
          cases i with
          | zero =>
              obtain ⟨rfl, rfl⟩ := And.intro (Option.some.inj hv) (Option.some.inj hw)
              exact h.left
          | succ i => exact ih h.right hv hw

theorem AllMet.of_agreeAll (h : AllMet E (agreeAll why vs ws)) (hv : vs[i]? = some v) (hw : ws[i]? = some w) :
    AllMet E (agree why v w) := by
  induction vs generalizing ws i with
  | nil => cases hv
  | cons v' vs ih =>
      cases ws with
      | nil => cases hw
      | cons w' ws =>
          simp only [agreeAll] at h
          cases i with
          | zero =>
              obtain ⟨rfl, rfl⟩ := And.intro (Option.some.inj hv) (Option.some.inj hw)
              exact h.left
          | succ i => exact ih h.right hv hw

/-- An argument that has a parameter flows into it. -/
theorem AllMet.of_passArgs {handleVarargs variadic : Bool} {location : Location} {args : List (Option Variable)}
    {params : List Variable} {arg param : Variable}
    (h : AllMet E (passArgs handleVarargs variadic location args params)) (harg : args[i]? = some (some arg))
    (hparam : params[i]? = some param) :
    AllMet E (along ⟨"Argument passing", some location⟩ .forward arg param) := by
  induction args generalizing params i with
  | nil => cases harg
  | cons arg' args ih =>
      cases params with
      | nil => cases hparam
      | cons param' params =>
          cases i with
          | zero =>
              obtain ⟨rfl, rfl⟩ := And.intro (Option.some.inj harg) (Option.some.inj hparam)
              simp only [passArgs] at h
              exact h.left
          | succ i =>
              cases arg' with
              | none =>
                  simp only [passArgs] at h
                  exact ih h harg hparam
              | some arg' =>
                  simp only [passArgs] at h
                  exact ih h.right harg hparam

end Demand

end PointerKinds
