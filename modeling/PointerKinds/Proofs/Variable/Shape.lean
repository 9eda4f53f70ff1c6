/-
Having one shape is an equivalence.

Whether two variables have one shape is asked of both at once, constructor by constructor, and levels
are compared by how many there are or, if that is wanted, by how each was declared.  But there is
something that each variable has by itself and on which all of this turns.  Its outline keeps the
levels, the bases and how the parts are put together, and leaves out numbers, names and atoms; levels
lose how they were declared, unless that is wanted.  Two variables have one shape exactly if they have
one outline, so shape is as good an equivalence as equality.

An outline in which declarations matter can be made into one in which they do not, which is why
variables that pass the strict comparison pass the other.
-/
import Mathlib.Data.List.Basic
import PointerKinds.Variable.Basic

namespace PointerKinds

/-- What a comparison sees of a level. -/
def Level.outline (strict : Bool) (l : Level) : Level := ⟨0, if strict then l.shape else .pointer⟩

theorem Level.outline_outline (strict : Bool) (l : Level) : (l.outline true).outline strict = l.outline strict := by
  cases strict <;> rfl

/-- What a comparison sees of an object. -/
def Object.outline (strict : Bool) (o : Object) : Object where
  id := 0
  name := ""
  levels := o.levels.map (·.outline strict)
  base := o.base

theorem Object.outline_outline (strict : Bool) (o : Object) : (o.outline true).outline strict = o.outline strict := by
  simp only [outline, List.map_map, Function.comp_def, Level.outline_outline]

namespace Variable

variable {strict : Bool} {a b : Object} {u v w : Variable} {vs ws : List Variable}

mutual

/-- What a comparison sees of a variable. -/
def outline (strict : Bool) : Variable → Variable
  | object o => object (o.outline strict)
  | code o target => code (o.outline strict) (target.outline strict)
  | function _ ret params => function ⟨0, "", "", [], false, false⟩ (ret.outline strict) (outlines strict params)

/-- What a comparison sees of several variables. -/
def outlines (strict : Bool) : List Variable → List Variable
  | [] => []
  | v :: vs => v.outline strict :: outlines strict vs

end

/-! ### One shape, one outline -/

/-- Levels that do not show how they were declared are told apart by how many they are. -/
theorem map_outline_false_iff {ls ls' : List Level} :
    ls.map (·.outline false) = ls'.map (·.outline false) ↔ ls.length = ls'.length := by
  unfold Level.outline
  simp only [Bool.false_eq_true, if_false, List.map_const', List.replicate_inj, or_true, and_true]

/-- Levels that do are told apart by that. -/
theorem map_outline_true_iff {ls ls' : List Level} :
    ls.map (·.outline true) = ls'.map (·.outline true) ↔ ls.map (·.shape) = ls'.map (·.shape) := by
  have hmap : ∀ ls : List Level, ls.map (·.outline true) = (ls.map (·.shape)).map (Level.mk 0) := fun ls => by
    rw [List.map_map]
    rfl
  have hinj : Function.Injective (Level.mk 0) := fun _ _ h => (Level.mk.inj h).2
  rw [hmap, hmap, (List.map_injective_iff.2 hinj).eq_iff]

/-- Objects have levels alike if they have one outline. -/
theorem sameLevels_iff : sameLevels strict a b = true ↔ a.outline strict = b.outline strict := by
  unfold sameLevels Object.outline
  simp only [Bool.and_eq_true, beq_iff_eq, Object.mk.injEq, true_and]
  cases strict with
  | false =>
      rw [map_outline_false_iff]
      simp only [Bool.not_false, Bool.true_or, and_true]
      rfl
  | true =>
      rw [map_outline_true_iff]
      simp only [Bool.not_true, Bool.false_or, beq_iff_eq]
      -- Equally many levels is what equal descriptions imply.
      have hdepth : a.shapes = b.shapes → a.depth = b.depth := fun h => by
        simpa only [Object.shapes, Object.depth, List.length_map] using congrArg List.length h
      constructor
      · rintro ⟨⟨-, hbase⟩, hshapes⟩
        exact ⟨hshapes, hbase⟩
      · rintro ⟨hshapes, hbase⟩
        exact ⟨⟨hdepth hshapes, hbase⟩, hshapes⟩

mutual

/-- **Variables have one shape exactly if they have one outline.** -/
theorem sameShape_iff (strict : Bool) : ∀ v w : Variable,
    v.sameShape strict w = true ↔ v.outline strict = w.outline strict
  | object _, object _ => by
      simp only [sameShape, outline, object.injEq]
      exact sameLevels_iff
  | code _ f, code _ g => by
      simp only [sameShape, outline, code.injEq, Bool.and_eq_true]
      exact and_congr sameLevels_iff (sameShape_iff strict f g)
  | function _ r ps, function _ r' ps' => by
      simp only [sameShape, outline, function.injEq, Bool.and_eq_true, true_and]
      exact and_congr (sameShape_iff strict r r') (sameShapes_iff strict ps ps')
  | object _, code .. | object _, function .. | code .., object _ | code .., function ..
  | function .., object _ | function .., code .. => by
      simp only [sameShape, outline, Bool.false_eq_true, reduceCtorEq]

theorem sameShapes_iff (strict : Bool) : ∀ vs ws : List Variable,
    sameShapes strict vs ws = true ↔ outlines strict vs = outlines strict ws
  | [], [] => by simp only [sameShapes, outlines]
  | v :: vs, w :: ws => by
      simp only [sameShapes, outlines, List.cons.injEq, Bool.and_eq_true]
      exact and_congr (sameShape_iff strict v w) (sameShapes_iff strict vs ws)
  | [], _ :: _ | _ :: _, [] => by
      simp only [sameShapes, outlines, Bool.false_eq_true, reduceCtorEq]

end

theorem outlines_eq_map (strict : Bool) (vs : List Variable) : outlines strict vs = vs.map (outline strict) := by
  induction vs with
  | nil => rfl
  | cons v vs ih => rw [outlines, ih, List.map_cons]

theorem length_eq_of_sameShapes (h : sameShapes strict vs ws = true) : vs.length = ws.length := by
  rw [sameShapes_iff, outlines_eq_map, outlines_eq_map] at h
  simpa only [List.length_map] using congrArg List.length h

/-! ### The equivalence -/

theorem sameShape_refl (strict : Bool) (v : Variable) : v.sameShape strict v = true := (sameShape_iff strict v v).2 rfl

theorem sameShape_comm (strict : Bool) (v w : Variable) : v.sameShape strict w = w.sameShape strict v :=
  Bool.eq_iff_iff.2 (by rw [sameShape_iff, sameShape_iff, eq_comm])

theorem sameShape_trans (h : u.sameShape strict v = true) (h' : v.sameShape strict w = true) :
    u.sameShape strict w = true :=
  (sameShape_iff strict u w).2 (((sameShape_iff strict u v).1 h).trans ((sameShape_iff strict v w).1 h'))

mutual

/-- An outline in which declarations do not matter can be made of one in which they do. -/
theorem outline_outline (strict : Bool) : ∀ v : Variable, (v.outline true).outline strict = v.outline strict
  | object o => by
      simp only [outline, o.outline_outline]
  | code o target => by
      simp only [outline, o.outline_outline, outline_outline strict target]
  | function _ ret params => by
      simp only [outline, outline_outline strict ret, outlines_outlines strict params]

theorem outlines_outlines (strict : Bool) : ∀ vs : List Variable,
    outlines strict (outlines true vs) = outlines strict vs
  | [] => rfl
  | v :: vs => by
      simp only [outlines, outline_outline strict v, outlines_outlines strict vs]

end

/-- Variables that were declared alike have one shape whether that is asked for or not. -/
theorem sameShape_of_strict (strict : Bool) (h : v.sameShape true w = true) : v.sameShape strict w = true := by
  rw [sameShape_iff] at h ⊢
  rw [← outline_outline strict v, h, outline_outline]

end Variable

end PointerKinds
