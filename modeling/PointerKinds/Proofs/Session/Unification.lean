/-
Variables that are made to agree, agree throughout.

Whether two variables have one shape is asked once, at the outermost level, and then the
recursion that makes them agree goes down on its own.  It asks again at every step, whether the
two are the same and whether their shapes fit; of variables that are parallel the answer never
changes, so what is demanded in the end is that the atoms of the two are equal, one after the
other, and nothing besides.

A safe cast goes by the types.  Variables of types that may be read as each other are parallel, or
are data of one depth, and then there is nothing below the levels.
-/
import PointerKinds.Proofs.Session.Enactment
import PointerKinds.Proofs.Session.Events
import PointerKinds.Proofs.Variable.Layout

namespace PointerKinds

namespace Demand

variable {why : Explanation} {v w : Variable} {vs ws : List Variable} {as bs as' bs' : List AtomKey}
  {location : Option Location}

theorem joins_append (hlength : as.length = bs.length) :
    joins (as ++ as') (bs ++ bs') = joins as bs ++ joins as' bs' := by
  rw [joins, List.zip_append hlength, List.map_append]
  rfl

/-- The atoms of two variables are paired off with nothing left, and agreeing is their being equal
pair by pair. -/
structure Pairs (why : Explanation) (v w : Variable) : Prop where
  length : v.atoms.length = w.atoms.length
  agree : agree why v w = joins v.atoms w.atoms

/-- So it is with lists of variables. -/
theorem pairs_all (hlength : vs.length = ws.length)
    (h : ∀ (i : Nat) (v w : Variable), vs[i]? = some v → ws[i]? = some w → Pairs why v w) :
    (Variable.atomsOfAll vs).length = (Variable.atomsOfAll ws).length ∧
      agreeAll why vs ws = joins (Variable.atomsOfAll vs) (Variable.atomsOfAll ws) := by
  induction vs generalizing ws with
  | nil =>
      obtain rfl := List.length_eq_zero_iff.1 hlength.symm
      exact ⟨rfl, by simp only [agreeAll]; rfl⟩
  | cons v vs ih =>
      cases ws with
      | nil => exact absurd hlength (Nat.succ_ne_zero _)
      | cons w ws =>
          have hfirst := h 0 v w rfl rfl
          obtain ⟨hcount, hrest⟩ := ih (Nat.succ.inj hlength) fun i => h (i + 1)
          simp only [agreeAll, Variable.atomsOfAll, List.length_append]
          rw [hfirst.agree, hrest, joins_append hfirst.length, hfirst.length, hcount]
          exact ⟨rfl, rfl⟩

/-- **Agreeing pairs off the atoms of variables that are parallel**, down to the last part. -/
theorem pairs_of_parallel (why : Explanation) (h : v.Parallel w) : Pairs why v w := by
  induction h with
  | @object a b hid hlevels =>
      have hdepth := (Variable.eq_of_sameLevels hlevels).1
      refine ⟨?_, ?_⟩
      · simp only [Variable.atoms, length_atoms, hdepth]
      · rw [agree, if_neg hid, if_pos hlevels, Variable.atoms, Variable.atoms]
  | @code a b f g hid hlevels hshape _ ih =>
      have hlength : a.atoms.length = b.atoms.length := by
        rw [length_atoms, length_atoms, (Variable.eq_of_sameLevels hlevels).1]
      refine ⟨?_, ?_⟩
      · simp only [Variable.atoms, List.length_append, hlength, ih.length]
      · rw [agree, if_neg hid, if_pos (Bool.and_eq_true_iff.2 ⟨hlevels, hshape⟩), ih.agree, Variable.atoms,
          Variable.atoms, joins_append hlength]
  | function hid _ hlength _ ihret ihparams =>
      obtain ⟨hcount, hparams⟩ := pairs_all hlength ihparams
      refine ⟨?_, ?_⟩
      · simp only [Variable.atoms, List.length_append, ihret.length, hcount]
      · rw [agree, if_neg hid, if_pos hlength, ihret.agree, hparams, Variable.atoms, Variable.atoms,
          joins_append ihret.length]

/-- A safe cast between variables that are parallel makes them agree. -/
theorem cast_of_parallel (h : v.Parallel w) : cast location true v w = joins v.atoms w.atoms := by
  cases h with
  | object => simp only [cast, if_true, Variable.atoms]
  | @code a b f g _ hlevels _ htarget =>
      have hlength : a.atoms.length = b.atoms.length := by
        rw [length_atoms, length_atoms, (Variable.eq_of_sameLevels hlevels).1]
      simp only [cast, if_true, Variable.atoms]
      rw [(pairs_of_parallel _ htarget).agree, joins_append hlength]
  | function hid hret hlength hparams =>
      simp only [cast, if_true]
      exact (pairs_of_parallel _ (.function hid hret hlength hparams)).agree

end Demand

namespace Variable

/-- The equalities of the atoms of two variables, one after the other. -/
def equalities (v w : Variable) : List Formula := (v.atoms.zip w.atoms).map fun p => .equal (.atom p.1) (.atom p.2)

theorem formulas_joins (v w : Variable) : (Demand.joins v.atoms w.atoms).flatMap Demand.formulas = v.equalities w := by
  unfold Demand.joins equalities
  rw [List.flatMap_map, List.map_eq_flatMap]
  rfl

end Variable

/-- One store becomes another by the equalities of the atoms of two variables, which are equally
many, becoming top-level, the erased ones aside, and no other constraints; and wherever these are in
force and solving leaves nothing unsatisfied, the two variables agree at every level, of their parts
too. -/
structure Store.Unifies (s t : Store) (v w : Variable) : Prop where
  length : v.atoms.length = w.atoms.length
  enacts : s.Enacts t (v.equalities w)
  agree : ∀ u : Store, (∀ f ∈ v.equalities w, u.InForce f) → u.solve.1.isSolved = true →
    v.atoms.map u.solve.2.value = w.atoms.map u.solve.2.value

theorem Store.unifies_joins {s : Store} {v w : Variable} (hlength : v.atoms.length = w.atoms.length) :
    s.Unifies (s.imposeAll (Demand.joins v.atoms w.atoms)) v w where
  length := hlength
  enacts := v.formulas_joins w ▸ s.enacts_imposeAll _
  agree u hforce hsolved := by
    have hmet : Demand.AllMet u.solve.2.value (Demand.joins v.atoms w.atoms) :=
      (Store.satisfied_solve hsolved).allMet_of_inForce ((v.formulas_joins w).symm ▸ hforce)
    exact hmet.map_eq hlength

namespace System

open Session (pointerTo intType)

variable {sys : System} {v w : Variable}

/-- **Two-way demands unify the whole shape.**  Two variables of a system that have one shape, and
two that were declared with types that a cast may safely read as each other, are made to agree, atom
by atom and in nothing else. -/
theorem unifies_of_constructed (hsys : sys.Constructed) (hv : v ∈ sys.declared) (hw : w ∈ sys.declared)
    (hid : v.id ≠ w.id) :
    (v.sameShape false w = true → ∀ (s : Store) (why : Explanation), s.Unifies (s.equate why v w) v w) ∧
    ∀ ty ty', sys.DeclaredAs true ty v → sys.DeclaredAs true ty' w → ty.castSafe ty' = true →
      ∀ (s : Store) (location : Option Location), s.Unifies (s.cast location true v w) v w := by
  have hparallel := Variable.parallel_of_sameShape hsys.isForest hv hw hid
  refine ⟨fun hshape s why => ?_, fun ty ty' hty hty' hsafe s location => ?_⟩
  · have hpairs := Demand.pairs_of_parallel why (hparallel hshape)
    rw [Store.equate_eq, hpairs.agree]
    exact Store.unifies_joins hpairs.length
  · rw [Store.cast_eq]
    rcases hty.laidOut.castable hty'.laidOut rfl hsafe with hshape | ⟨a, b, rfl, rfl, hdepth⟩
    · rw [Demand.cast_of_parallel (hparallel hshape)]
      exact Store.unifies_joins (Demand.pairs_of_parallel {} (hparallel hshape)).length
    · have hlength : (Variable.object a).atoms.length = (Variable.object b).atoms.length := by
        simpa only [Variable.atoms, Demand.length_atoms] using hdepth
      exact Store.unifies_joins hlength

/-- The type of a pointer, checked or not, to a function that is given a pointer to a pointer and gives
back a pointer. -/
def callbackType (checked : Option CheckedForm) : CType :=
  .pointer (.function (pointerTo intType) [pointerTo (pointerTo intType)] false) checked

/-- One such pointer. -/
def oneCallback : System := (({} : System).declare "f" (callbackType none) none).2

/-- A second one, which is checked. -/
def twoCallbacks : System := (oneCallback.declare "g" (callbackType (some .ptr)) none).2

/-- Both were declared, and are filed last in the systems they were declared in. -/
theorem declaredAs_twoCallbacks :
    twoCallbacks.Constructed ∧
    twoCallbacks.DeclaredAs true (callbackType none) (({} : System).declare "f" (callbackType none) none).1 ∧
    twoCallbacks.DeclaredAs true (callbackType (some .ptr))
      (oneCallback.declare "g" (callbackType (some .ptr)) none).1 :=
  ⟨(MadeBy.empty.declareType none "f" true (callbackType none)).declareType none "g" true (callbackType (some .ptr)),
    (declaredAs_self ..).of_continues (declareType_appends ..).continues, declaredAs_self ..⟩

/-- The two pointers agree in all four atoms, three of them in their targets. -/
theorem twoCallbacks_unified :
    ∃ f g, twoCallbacks.find? 3 = some f ∧ twoCallbacks.find? 7 = some g ∧
      f.atoms.zip g.atoms = [(0, 4), (1, 5), (2, 6), (3, 7)] ∧
      twoCallbacks.store.Unifies (twoCallbacks.store.equate {} f g) f g ∧
      twoCallbacks.store.Unifies (twoCallbacks.store.cast none true f g) f g := by
  obtain ⟨hsys, hf, hg⟩ := declaredAs_twoCallbacks
  obtain ⟨hequate, hcast⟩ := unifies_of_constructed hsys hf.mem_declared hg.mem_declared (by decide)
  exact ⟨_, _, rfl, rfl, by decide, hequate (by decide) _ _, hcast _ _ hf hg (by decide) _ _⟩

end System

end PointerKinds
