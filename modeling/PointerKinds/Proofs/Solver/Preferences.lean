/-
Which components the preferences promote.

Plain arrays fall into components: two of them are in one if they are connected.  A component is
promoted if some member would rather be null-terminated and no member refuses.  Both are questions
about the component, so its members are promoted together or not at all.

All components can be found in one go.  A search that starts from each plain array in turn, and
remembers across its starts whom it has met, meets exactly one component at each start that is
new to it.  What it has met so far is closed under the joins, and the joins go both ways, so a
component that is not met at all is met as a whole.

Nothing is asked of the kinds: they may be any, and those of atoms that are not registered too.
Such an atom is joined to nothing, and having no preferences it is not promoted.
-/
import Mathlib.Data.List.Sort
import PointerKinds.Proofs.Solver.Components
import PointerKinds.Proofs.Store.Built

namespace PointerKinds

namespace Store

variable {s : Store} {E : AtomKey → Kind} {x y : AtomKey}

/-! ### What is said for and against a promotion -/

/-- Only registered atoms are joined to any. -/
theorem Indexed.contains_of_joined (hs : s.Indexed) (h : s.Joined x y) : s.atoms.contains x = true := by
  rcases h with ⟨id, hf⟩ | ⟨id, hf⟩
  · exact hs.contains_of_mem hf (by simp [Formula.mentions, Operand.key?])
  · exact hs.contains_of_mem hf (by simp [Formula.mentions, Operand.key?])

/-- An atom would rather be null-terminated, at least if it is an array at all. -/
def PrefersNtArr (s : Store) (x : AtomKey) : Prop :=
  ∃ a, s.atoms.get? x = some a ∧ (a.soft.shouldBeNtArr = true ∨ a.soft.ifArrThenNtArr = true)

/-- What keeps a plain array one. -/
inductive RefusesNtArr (s : Store) (x : AtomKey) : Prop
  | preference {a : Atom} (ha : s.atoms.get? x = some a) (h : a.soft.shouldBeArr = true)
  | filter {a : Atom} (ha : s.atoms.get? x = some a) (h : a.permits .ntArr = false)
  | constraint (h : s.InForce (.pin x .arr))

/-- A plain array whose component has a member that would rather be null-terminated, and none that
refuses. -/
structure Promotable (s : Store) (E : AtomKey → Kind) (x : AtomKey) : Prop where
  arr : E x = .arr
  preferred : ∃ y, s.Connected E x y ∧ s.PrefersNtArr y
  free : ∀ y, s.Connected E x y → ¬ s.RefusesNtArr y

/-- It is the component that is promotable. -/
theorem Promotable.of_connected (h : s.Promotable E x) (hxy : s.Connected E x y) : s.Promotable E y := by
  obtain ⟨z, hz, hprefers⟩ := h.preferred
  refine ⟨hxy.arr h.arr, ⟨z, hxy.symm.trans hz, hprefers⟩, ?_⟩
  intro w hw
  exact h.free w (hxy.trans hw)

end Store

namespace Run

variable {s : Store} {run : Run} {x y : AtomKey} {met stack members starts : List AtomKey}

theorem wantsPromotion_iff_prefers : wantsPromotion s x = true ↔ s.PrefersNtArr x := by
  rw [wantsPromotion_iff]
  simp only [Store.PrefersNtArr, SoftPreferences.wantsNtArr, Bool.or_eq_true]

/-- A registered atom stands against its promotion if it refuses. -/
theorem blocksPromotion_eq_false_iff_free (hs : s.Indexed) (hreg : s.atoms.contains x = true) :
    blocksPromotion s x = false ↔ ¬ s.RefusesNtArr x := by
  obtain ⟨a, ha⟩ := Option.isSome_iff_exists.1 hreg
  rw [blocksPromotion_eq_false_iff hs]
  constructor
  · intro h hheld
    obtain ⟨hpin, b, hb, harr, hpermits⟩ := h
    cases hheld with
    | preference hc hpref =>
        obtain rfl := Option.some.inj (hb.symm.trans hc)
        exact nomatch harr.symm.trans hpref
    | filter hc hbars =>
        obtain rfl := Option.some.inj (hb.symm.trans hc)
        exact nomatch hbars.symm.trans hpermits
    | constraint hforce => exact hpin hforce
  · intro h
    refine ⟨fun hforce => h (.constraint hforce), a, ha, ?_, ?_⟩
    · rw [← Bool.not_eq_true]
      intro hpref
      exact h (.preference ha hpref)
    · rw [← Bool.not_eq_false]
      intro hbars
      exact h (.filter ha hbars)

/-- Asking the members of a component is asking whether it is promotable.  A member that is not
registered is alone in its component, and has no preferences. -/
theorem promotable_iff (hs : s.Indexed) (hx : run.value x = .arr)
    (hmembers : ∀ y, y ∈ members ↔ s.Connected run.value x y) :
    (members.any (wantsPromotion s) && !members.any (blocksPromotion s)) = true ↔ s.Promotable run.value x := by
  simp only [Bool.and_eq_true, Bool.not_eq_true', List.any_eq_true, List.any_eq_false, hmembers,
    Bool.not_eq_true, wantsPromotion_iff_prefers]
  constructor
  · intro h
    obtain ⟨hprefers, hfree⟩ := h
    refine ⟨hx, hprefers, ?_⟩
    intro y hy
    obtain ⟨-, a, ha, -⟩ := (blocksPromotion_eq_false_iff hs).1 (hfree y hy)
    have hreg : s.atoms.contains y = true := Option.isSome_iff_exists.2 ⟨a, ha⟩
    exact (blocksPromotion_eq_false_iff_free hs hreg).1 (hfree y hy)
  · intro h
    refine ⟨h.preferred, ?_⟩
    intro y hy
    obtain ⟨z, hz, hprefers⟩ := h.preferred
    have hreg : s.atoms.contains y = true := by
      rcases Relation.ReflTransGen.cases_head (hy.symm.trans hz) with rfl | ⟨w, hyw, -⟩
      · obtain ⟨a, ha, -⟩ := hprefers
        exact Option.isSome_iff_exists.2 ⟨a, ha⟩
      · exact hs.contains_of_joined hyw.1
    exact (blocksPromotion_eq_false_iff_free hs hreg).2 (h.free y hy)

/-! ### Searching from one more atom -/

theorem prefix_foldl_meet (l : List AtomKey) (state : List AtomKey × List AtomKey) :
    state.1 <+: (l.foldl meet state).1 := by
  induction l generalizing state with
  | nil => exact List.prefix_refl _
  | cons key rest ih =>
      rw [List.foldl_cons]
      refine List.IsPrefix.trans ?_ (ih _)
      unfold meet
      split
      · exact List.prefix_refl _
      · exact List.prefix_append _ _

/-- A search puts whom it meets behind those met before. -/
theorem prefix_explore (fuel : Nat) (met stack : List AtomKey) : met <+: explore s run fuel met stack := by
  induction fuel generalizing met stack with
  | zero => cases stack <;> exact List.prefix_refl _
  | succ fuel ih =>
      cases stack with
      | nil => exact List.prefix_refl _
      | cons key rest => exact (prefix_foldl_meet _ (met, rest)).trans (ih _ _)

/-- The atoms that a search meets from a new start, having met some before. -/
def found (s : Store) (run : Run) (met : List AtomKey) (x : AtomKey) : List AtomKey :=
  (run.explore s (run.arrAtoms.length + 1) (met ++ [x]) [x]).drop met.length

theorem explore_eq_append_found (s : Store) (run : Run) (met : List AtomKey) (x : AtomKey) :
    run.explore s (run.arrAtoms.length + 1) (met ++ [x]) [x] = met ++ run.found s met x := by
  have hprefix : met <+: run.explore s (run.arrAtoms.length + 1) (met ++ [x]) [x] :=
    (List.prefix_append met [x]).trans (prefix_explore _ _ _)
  obtain ⟨rest, hrest⟩ := hprefix
  unfold found
  rw [← hrest, List.drop_left]

/-- From a new start a search that had ended meets the start's component, and ends again. -/
theorem Walk.found (hs : s.Indexed) (h : Walk s run met []) (hx : run.value x = .arr) (hnew : x ∉ met) :
    Walk s run (met ++ run.found s met x) [] ∧ ∀ y, y ∈ run.found s met x ↔ s.Connected run.value x y := by
  have hend := h.mem_explore_iff hs hx hnew
  rw [explore_eq_append_found] at hend
  obtain ⟨hwalk, hmem⟩ := hend
  obtain ⟨-, -, hdisjoint⟩ := List.nodup_append.1 hwalk.nodup
  refine ⟨hwalk, fun y => ⟨?_, ?_⟩⟩
  · intro hy
    refine ((hmem y).1 (List.mem_append_right met hy)).resolve_left ?_
    intro hmet
    exact hdisjoint y hmet y hy rfl
  · intro hxy
    refine (List.mem_append.1 ((hmem y).2 (.inr hxy))).resolve_left ?_
    -- Someone met before would have led to the start, which is new.
    intro hmet
    exact hnew (h.connected hs hmet hxy.symm)

/-- Exactly the promotable atoms are promoted. -/
theorem mem_promotions_iff_promotable (hs : s.Indexed) : x ∈ run.promotions s ↔ s.Promotable run.value x := by
  unfold promotions
  rw [List.mem_filter, mem_arrAtoms]
  constructor
  · intro h
    exact (promotable_iff hs h.1 fun y => mem_component hs h.1).1 h.2
  · intro h
    exact ⟨h.arr, (promotable_iff hs h.arr fun y => mem_component hs h.arr).2 h⟩

theorem pairwise_arrAtoms (run : Run) : run.arrAtoms.Pairwise (· < ·) :=
  run.env.pairwise_keys.filter _

theorem pairwise_promotions (s : Store) (run : Run) : (run.promotions s).Pairwise (· < ·) :=
  (pairwise_arrAtoms run).filter _

/-! ### One search for all components -/

/-- The members of a component that is promoted, and nobody of one that is not. -/
def approved (s : Store) (members : List AtomKey) : List AtomKey :=
  if members.any (wantsPromotion s) && !members.any (blocksPromotion s) then members else []

/-- Goes through some starts, searches from each that was not met before, and keeps the components
that are approved. -/
def sweep (s : Store) (run : Run) : List AtomKey → List AtomKey → List AtomKey
  | _, [] => []
  | met, x :: starts =>
    if met.contains x then sweep s run met starts
    else approved s (run.found s met x) ++ sweep s run (met ++ run.found s met x) starts

theorem mem_approved (hs : s.Indexed) (hx : run.value x = .arr)
    (hmembers : ∀ y, y ∈ members ↔ s.Connected run.value x y) :
    y ∈ approved s members ↔ s.Connected run.value x y ∧ s.Promotable run.value y := by
  have hasked := promotable_iff hs hx hmembers
  unfold approved
  by_cases hpromotable : s.Promotable run.value x
  · rw [if_pos (hasked.2 hpromotable), hmembers y, iff_self_and]
    exact hpromotable.of_connected
  · rw [if_neg (mt hasked.1 hpromotable)]
    constructor
    · intro h
      exact absurd h List.not_mem_nil
    · intro h
      exact absurd (h.2.of_connected h.1.symm) hpromotable

theorem sublist_approved (s : Store) (members : List AtomKey) : (approved s members).Sublist members := by
  unfold approved
  split
  · exact List.Sublist.refl members
  · exact List.nil_sublist members

/-- The sweep keeps, once each, the promotable atoms that its starts lead to and it had not met. -/
theorem Walk.sweep (hs : s.Indexed) (h : Walk s run met []) (hstarts : ∀ x ∈ starts, run.value x = .arr) :
    (run.sweep s met starts).Nodup ∧ ∀ y, y ∈ run.sweep s met starts ↔
      y ∉ met ∧ (∃ x ∈ starts, s.Connected run.value x y) ∧ s.Promotable run.value y := by
  induction starts generalizing met with
  | nil => simp [Run.sweep]
  | cons x starts ih =>
      have hrest : ∀ z ∈ starts, run.value z = .arr := fun z hz => hstarts z (List.mem_cons_of_mem x hz)
      have hx := hstarts x List.mem_cons_self
      unfold Run.sweep
      by_cases hmem : x ∈ met
      · -- The start's component has been met as a whole.
        rw [if_pos (List.contains_iff_mem.2 hmem)]
        obtain ⟨hnodup, hkept⟩ := ih h hrest
        refine ⟨hnodup, ?_⟩
        intro y
        rw [hkept y, List.exists_mem_cons_iff]
        refine and_congr_right fun hy => and_congr_left fun _ => ?_
        rw [or_iff_right]
        intro hxy
        exact hy (h.connected hs hmem hxy)
      · rw [if_neg (mt List.contains_iff_mem.1 hmem)]
        obtain ⟨hwalk, hfound⟩ := h.found hs hx hmem
        obtain ⟨hnodup, hkept⟩ := ih hwalk hrest
        obtain ⟨-, hfresh, hdisjoint⟩ := List.nodup_append.1 hwalk.nodup
        constructor
        · refine List.nodup_append.2 ⟨hfresh.sublist (sublist_approved s _), hnodup, ?_⟩
          intro a ha b hb hab
          have hmet : a ∈ met ++ run.found s met x :=
            List.mem_append_right met ((sublist_approved s _).subset ha)
          exact ((hkept b).1 hb).1 (hab ▸ hmet)
        · intro y
          rw [List.mem_append, mem_approved hs hx hfound, hkept y, List.mem_append, hfound y,
            List.exists_mem_cons_iff]
          by_cases hxy : s.Connected run.value x y
          · have hnew : y ∉ met := fun hy => hdisjoint y hy y ((hfound y).2 hxy) rfl
            simp [hxy, hnew]
          · simp [hxy]

/-- A sweep from all plain arrays finds what asking each of them for its own component finds. -/
theorem mergeSort_sweep (hs : s.Indexed) (run : Run) :
    (run.sweep s [] run.arrAtoms).mergeSort = run.promotions s := by
  obtain ⟨hnodup, hkept⟩ := walk_nil.sweep hs fun x hx => mem_arrAtoms.1 hx
  have hperm : (run.sweep s [] run.arrAtoms).Perm (run.promotions s) := by
    refine (List.perm_ext_iff_of_nodup hnodup (pairwise_promotions s run).nodup).2 ?_
    intro y
    rw [hkept y, mem_promotions_iff_promotable hs]
    constructor
    · intro h
      exact h.2.2
    · intro h
      exact ⟨List.not_mem_nil, ⟨y, mem_arrAtoms.2 h.arr, .refl⟩, h⟩
  have hascending : (run.promotions s).Pairwise (· ≤ ·) := (pairwise_promotions s run).imp Nat.le_of_lt
  exact ((List.mergeSort_perm _ _).trans hperm).eq_of_pairwise' (List.pairwise_mergeSort' (· ≤ ·) _) hascending

/-! ### What is promoted -/

/-- **The preferences promote exactly the promotable components.**  In a store that the operations
build, and whatever kinds a run has given the atoms so far, an atom is promoted if it is a plain
array, some member of its component would rather be null-terminated, and no member refuses.  The
promoted atoms are listed in ascending order, none of them twice; of two connected atoms both are
promoted or neither; and a single search for all components, which remembers whom it has met,
promotes the same atoms. -/
theorem promotions_exact {s : Store} (hs : s.Built) (run : Run) :
    (∀ x, x ∈ run.promotions s ↔ s.Promotable run.value x) ∧
      (run.promotions s).Pairwise (· < ·) ∧
      (∀ x y, s.Connected run.value x y → (x ∈ run.promotions s ↔ y ∈ run.promotions s)) ∧
      (run.sweep s [] run.arrAtoms).mergeSort = run.promotions s := by
  have hmem : ∀ x, x ∈ run.promotions s ↔ s.Promotable run.value x :=
    fun x => mem_promotions_iff_promotable hs.indexed
  refine ⟨hmem, pairwise_promotions s run, ?_, mergeSort_sweep hs.indexed run⟩
  intro x y hxy
  rw [hmem x, hmem y]
  constructor
  · intro h
    exact h.of_connected hxy
  · intro h
    exact h.of_connected hxy.symm

/-! ### Concrete components -/

/-- Two pairs of joined atoms, with a member of each that would rather be null-terminated; the other
member of the second pair would rather be a plain array. -/
def couples : Store :=
  let s := (({} : Store).addEq (.atom 0) (.atom 1)).2
  let s := (s.addEq (.atom 3) (.atom 2)).2
  ((s.setSoft 1 { shouldBeNtArr := true }).setSoft 2 { ifArrThenNtArr := true }).setSoft 3 { shouldBeArr := true }

theorem couples_built : couples.Built :=
  ((((Store.Built.empty.addEq _ _ _).addEq _ _ _).setSoft _ _).setSoft _ _).setSoft _ _

/-- A run that has made plain arrays of both pairs, and of an atom that is not registered. -/
def arrays : Run :=
  { Run.start couples with env := .ofList [(0, .arr), (1, .arr), (2, .arr), (3, .arr), (7, .arr)] }

/-- The first pair is promoted, one of its members for the sake of the other, and nobody else is. -/
theorem couples_promoted : couples.Built ∧ arrays.promotions couples = [0, 1] ∧
    couples.Promotable arrays.value 0 ∧ ¬ couples.Promotable arrays.value 2 ∧ ¬ couples.Promotable arrays.value 7 ∧
    (arrays.sweep couples [] arrays.arrAtoms).mergeSort = [0, 1] := by
  obtain ⟨hmem, -, -, hsweep⟩ := promotions_exact couples_built arrays
  have hpromoted : arrays.promotions couples = [0, 1] := by decide
  exact ⟨couples_built, hpromoted, (hmem 0).1 (by decide), mt (hmem 2).2 (by decide), mt (hmem 7).2 (by decide),
    hsweep.trans hpromoted⟩

end Run

end PointerKinds
