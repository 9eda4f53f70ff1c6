/-
What an edit of one atom reaches.

Making an atom checked again erases constraints, puts a region back to checked pointers and solves
from there, with rounds that may be rejected.  Little of the store can change through that.  The
constraints themselves, what is top-level, the filters and the preferences are `Akin` before and
after, whichever edit it is; what is erased besides is exactly what held the atom unchecked.

Nothing outside the region is lowered, for lowering is done once, before the first round, and
every round only raises atoms above the kinds it starts from.  This needs no more of a rejected
round than that it leaves no kinds behind; and when all rounds are run in one state, rolled back
to what it was after the lowering, then it does not.

The region may be anything.  Of what it lists only registered atoms count, but an unchecked atom
is registered, so none is missed in the answer.
-/
import PointerKinds.Proofs.Solver.Forcing
import PointerKinds.Proofs.Solver.Repeat
import PointerKinds.Proofs.Store.Tally

namespace PointerKinds

namespace Store

variable {s t u : Store} {key x : AtomKey} {id : ConstraintId} {region : List AtomKey}

/-! ### What edits leave alone -/

/-- What is said of an atom apart from the constraints that mention it. -/
def bare (s : Store) (key : AtomKey) : Option (SortedSet Kind × SoftPreferences) :=
  (s.atoms.get? key).map fun a => (a.forbidden, a.soft)

/-- Stores with the same constraints, atoms, filters and preferences.  They may differ in what
is suspended and in what was found out. -/
structure Akin (s t : Store) : Prop where
  arena : t.arena = s.arena
  topLevel : t.topLevel = s.topLevel
  nextKey : t.nextKey = s.nextKey
  untraced : s.trace = none → t.trace = none
  bare : ∀ key, t.bare key = s.bare key

theorem Akin.refl (s : Store) : s.Akin s := ⟨rfl, rfl, rfl, id, fun _ => rfl⟩

theorem Akin.trans (h : s.Akin t) (h' : t.Akin u) : s.Akin u where
  arena := h'.arena.trans h.arena
  topLevel := h'.topLevel.trans h.topLevel
  nextKey := h'.nextKey.trans h.nextKey
  untraced hs := h'.untraced (h.untraced hs)
  bare key := (h'.bare key).trans (h.bare key)

theorem Akin.foldl {α : Type} {step : Store → α → Store} (hstep : ∀ (t : Store) a, t.Akin (step t a)) (l : List α)
    (s : Store) : s.Akin (l.foldl step s) := by
  induction l generalizing s with
  | nil => exact .refl s
  | cons a rest ih => exact (hstep s a).trans (ih (step s a))

/-- A change to the records of one atom. -/
theorem akin_modifyAtom (s : Store) (key : AtomKey) {g : Atom → Atom}
    (hg : ∀ a, (g a).forbidden = a.forbidden ∧ (g a).soft = a.soft) : s.Akin (s.modifyAtom key g) where
  arena := rfl
  topLevel := rfl
  nextKey := rfl
  untraced := id
  bare x := by
    unfold Store.bare modifyAtom
    rw [SortedMap.get?_modify]
    split
    · rename_i he
      rw [Option.map_map, he]
      exact Option.map_congr fun a _ => Prod.ext (hg a).1 (hg a).2
    · rfl

theorem akin_modifyAtomsOf (s : Store) (id : ConstraintId) {g : Atom → Atom}
    (hg : ∀ a, (g a).forbidden = a.forbidden ∧ (g a).soft = a.soft) : s.Akin (s.modifyAtomsOf id g) := by
  unfold modifyAtomsOf
  split
  · exact .foldl (fun t key => akin_modifyAtom t key hg) _ s
  · exact .refl s

/-- Which constraints are suspended does not matter. -/
theorem akin_suspend (s : Store) (erased : SortedSet ConstraintId) : s.Akin { s with erased } :=
  ⟨rfl, rfl, rfl, id, fun _ => rfl⟩

theorem akin_erase (s : Store) (id : ConstraintId) : s.Akin (s.erase id) := by
  unfold erase
  split
  · refine (akin_suspend s _).trans (akin_modifyAtomsOf _ id fun a => ?_)
    exact ⟨forbidden_atom_erase a id, soft_atom_erase a id⟩
  · exact .refl s

theorem akin_restore (s : Store) (key : AtomKey) : s.Akin (s.restore key) := by
  have hall : s.Akin (s.modifyAtom key (·.restoreAll)) := akin_modifyAtom s key fun _ => ⟨rfl, rfl⟩
  refine hall.trans (.foldl (fun t id => ?_) _ _)
  refine (akin_suspend t _).trans (akin_modifyAtomsOf _ id fun a => ?_)
  unfold Atom.restore
  split <;> exact ⟨rfl, rfl⟩

/-- What was found out does not matter. -/
theorem akin_commit (s : Store) (run : Run) : s.Akin (s.commit run) where
  arena := rfl
  topLevel := rfl
  nextKey := rfl
  untraced hs := by
    show s.trace.map _ = none
    rw [hs]
    rfl
  bare _ := rfl

theorem akin_makeNonWild (s : Store) (key : AtomKey) (region : List AtomKey) :
    s.Akin (s.makeNonWild key region).2 := by
  by_cases hkey : s.value key = .wild
  · rw [makeNonWild_of_wild hkey]
    have hlower : ((s.wildForcing key).foldl erase s).Akin (s.released key (s.regionAround key region)) :=
      ⟨rfl, rfl, rfl, id, fun _ => rfl⟩
    exact ((Akin.foldl akin_erase _ s).trans hlower).trans (akin_commit _ _)
  · rw [makeNonWild_of_ne hkey]
    exact .refl s

theorem Akin.contains (h : s.Akin t) (key : AtomKey) : t.atoms.contains key = s.atoms.contains key := by
  have hbare := congrArg Option.isSome (h.bare key)
  unfold Store.bare at hbare
  rwa [Option.isSome_map, Option.isSome_map] at hbare

/-! ### What is erased -/

theorem mem_erased_eraseAll {ids : List ConstraintId} :
    id ∈ (ids.foldl erase s).erased ↔ id ∈ s.erased ∨ id ∈ ids ∧ s.isActive id = true := by
  induction ids generalizing s with
  | nil => simp
  | cons i rest ih =>
      rw [List.foldl_cons, ih, isActive_erase, List.mem_cons]
      by_cases hi : s.isActive i = true
      · rw [mem_erased_erase hi]
        by_cases he : id = i
        · subst he
          simp [hi]
        · simp [he]
      · rw [erase_of_not_active hi]
        by_cases he : id = i
        · subst he
          simp [hi]
        · simp [he]

theorem erased_makeNonWild (hkey : s.value key = .wild) :
    id ∈ (s.makeNonWild key region).2.erased ↔ id ∈ s.erased ∨ id ∈ s.wildForcing key ∧ s.isActive id = true := by
  rw [makeNonWild_of_wild hkey]
  exact mem_erased_eraseAll

theorem mentions_makeNonWild : (s.makeNonWild key region).2.Mentions id x ↔ s.Mentions id x := by
  simp only [Mentions, formula?, constraint?, (akin_makeNonWild s key region).arena]

/-- What holds an atom unchecked is in force, so all of it is newly erased. -/
theorem Indexed.mem_erased_makeNonWild (hs : s.Indexed) (hkey : s.value key = .wild) :
    id ∈ (s.makeNonWild key region).2.erased ↔ id ∈ s.erased ∨ id ∈ s.wildForcing key := by
  rw [erased_makeNonWild hkey, and_iff_left_of_imp]
  intro hid
  exact (hs.of_mem_wildForcing hid).1

/-! ### What is lowered -/

/-- A round takes no atom below where it starts. -/
theorem value_le_round (s : Store) (seeds : List AtomKey) (blocked : List Formula) (x : AtomKey) :
    s.value x ≤ (Run.round s seeds blocked).value x := by
  refine Run.round_lasts (Run.lasting_le s x (s.value x)) ?_ seeds blocked (le_refl _)
  intro run hle
  exact le_trans hle (Run.le_value_promotions run x)

/-- Nor does solving, for it comes to a round. -/
theorem value_le_solution (s : Store) (seeds : List AtomKey) (x : AtomKey) :
    s.value x ≤ (s.solution seeds).run.value x := by
  rw [solution_eq_round]
  exact value_le_round s seeds _ x

theorem mem_regionAround_iff :
    x ∈ s.regionAround key region ↔ x = key ∨ x ∈ region ∧ s.atoms.contains x = true := by
  have hcontains := (Akin.foldl akin_erase (s.wildForcing key) s).contains x
  unfold regionAround
  rw [← SortedSet.mem_def, SortedSet.mem_ofList, List.mem_cons, List.mem_filter, hcontains]

theorem pairwise_regionAround (s : Store) (key : AtomKey) (region : List AtomKey) :
    (s.regionAround key region).Pairwise (· < ·) :=
  (SortedSet.ofList _).pairwise_toList

/-- Atoms outside the region stay at least where they are. -/
theorem value_le_makeNonWild (hx : x ≠ key) (hregion : x ∉ region) :
    s.value x ≤ (s.makeNonWild key region).2.value x := by
  by_cases hkey : s.value key = .wild
  · have houtside : x ∉ s.regionAround key region := by
      rw [mem_regionAround_iff]
      intro h
      rcases h with h | h
      · exact hx h
      · exact hregion h.1
    have hkept := value_released s key (s.regionAround key region) x
    rw [if_neg houtside] at hkept
    rw [makeNonWild_of_wild hkey, ← hkept]
    exact value_le_solution _ _ x
  · rw [makeNonWild_of_ne hkey]

/-! ### The answer -/

theorem fst_makeNonWild (hkey : s.value key = .wild) : (s.makeNonWild key region).1 =
    ((s.regionAround key region).filter fun x => s.value x = .wild).filter
      fun x => (s.makeNonWild key region).2.value x ≠ .wild := by
  have henv : ((s.wildForcing key).foldl erase s).env = s.env := (eraseAll_frame s _).2.2.1
  have hvalue : ((s.wildForcing key).foldl erase s).value = s.value := by
    unfold value
    rw [henv]
  rw [makeNonWild_of_wild hkey]
  unfold Store.makeNonWild
  rw [if_pos hkey]
  simp only [hvalue]
  rfl

/-- The answer lists the atoms asked for that were unchecked and are not any more. -/
theorem Tallied.mem_makeNonWild (hs : s.Tallied) (hkey : s.value key = .wild) :
    x ∈ (s.makeNonWild key region).1 ↔
      (x = key ∨ x ∈ region) ∧ s.value x = .wild ∧ (s.makeNonWild key region).2.value x ≠ .wild := by
  rw [fst_makeNonWild hkey, List.mem_filter, List.mem_filter, decide_eq_true_eq, decide_eq_true_eq,
    mem_regionAround_iff, and_assoc]
  refine and_congr_left fun h => ?_
  -- Being unchecked, the atom has a kind, and only registered atoms have one.
  have hreg : s.atoms.contains x = true := (hs.listed x).1 (contains_env_of_wild h.1)
  rw [and_iff_left hreg]

theorem pairwise_makeNonWild (hkey : s.value key = .wild) : (s.makeNonWild key region).1.Pairwise (· < ·) := by
  rw [fst_makeNonWild hkey]
  exact ((pairwise_regionAround s key region).filter _).filter _

/-! ### In one state -/

/-- Makes an atom checked again in one state.  The region is lowered once, and no rollback goes
behind that. -/
def makeNonWildInPlace (s : Store) (key : AtomKey) (region : List AtomKey) : List AtomKey × Store :=
  if s.value key = .wild then
    let s := (s.wildForcing key).foldl erase s
    let region := (SortedSet.ofList (key :: region.filter s.atoms.contains)).toList
    let lost := region.filter fun k => s.value k = .wild
    let s := (s.lower region).resumeInPlace region
    (lost.filter fun k => s.value k ≠ .wild, s)
  else ([], s)

theorem makeNonWildInPlace_eq_makeNonWild (s : Store) (key : AtomKey) (region : List AtomKey) :
    s.makeNonWildInPlace key region = s.makeNonWild key region := by
  unfold makeNonWildInPlace Store.makeNonWild
  simp only [resumeInPlace_eq_commit]

/-! ### The frame -/

/-- What the release of an atom, together with a region, may change: `t` is the store after it and
`freed` the answer. -/
structure ReleaseFrame (s t : Store) (key : AtomKey) (region freed : List AtomKey) : Prop where
  /-- The constraints, what is top-level, the filters and the preferences stay. -/
  akin : s.Akin t
  /-- Besides what was erased, exactly what held the atom unchecked is. -/
  erased : ∀ id, id ∈ t.erased ↔ id ∈ s.erased ∨ id ∈ s.wildForcing key
  /-- None of that was erased before, and all of it mentions the atom. -/
  forcing : ∀ id ∈ s.wildForcing key, id ∉ s.erased ∧ s.Mentions id key
  /-- Outside the region nothing is lowered. -/
  outside : ∀ x, x ≠ key → x ∉ region → s.value x ≤ t.value x
  ascending : freed.Pairwise (· < ·)
  /-- The answer is what the region has lost in unchecked atoms. -/
  freed : ∀ x, x ∈ freed ↔ (x = key ∨ x ∈ region) ∧ s.value x = .wild ∧ t.value x ≠ .wild

/-- **An edit of one atom stays within its frame.**  In a store that the operations build, for any
key and any region: making an atom checked again that is not unchecked changes nothing and has an
empty answer.  For an unchecked atom, exactly the constraints that held it so are newly erased, and
they all mention it; the constraints, what is top-level, the filters and the preferences stay;
nothing is lowered outside the region; and the answer lists, in ascending order, the atoms of the
region that were unchecked and are not any more, the atom itself counted in.  It comes to the same
whether rounds are run apart or in one state, rolled back to what it was after the lowering. -/
theorem release_frame (hs : s.Built) (key : AtomKey) (region : List AtomKey) :
    (s.value key ≠ .wild → s.makeNonWild key region = ([], s)) ∧
      (s.value key = .wild →
        s.ReleaseFrame (s.makeNonWild key region).2 key region (s.makeNonWild key region).1) ∧
      s.makeNonWildInPlace key region = s.makeNonWild key region := by
  refine ⟨?_, ?_, makeNonWildInPlace_eq_makeNonWild s key region⟩
  · intro hkey
    unfold Store.makeNonWild
    rw [if_neg hkey]
  · intro hkey
    refine
      { akin := akin_makeNonWild s key region
        erased := fun id => hs.indexed.mem_erased_makeNonWild hkey
        forcing := ?_
        outside := fun x hx hregion => value_le_makeNonWild hx hregion
        ascending := pairwise_makeNonWild hkey
        freed := fun x => hs.tallied.mem_makeNonWild hkey }
    intro id hid
    obtain ⟨hactive, hmentions⟩ := hs.indexed.of_mem_wildForcing hid
    exact ⟨(isActive_iff.1 hactive).2, hmentions⟩

/-! ### A concrete store -/

/-- An unchecked atom, one joined to it, and one that is unchecked by itself. -/
def neighbours : Store :=
  let s := (({} : Store).addEq (.atom 0) (.kind .wild)).2
  let s := (s.addEq (.atom 0) (.atom 1)).2
  let s := (s.addEq (.atom 2) (.kind .wild)).2
  s.solve.2

theorem neighbours_built : neighbours.Built :=
  (((Built.empty.addEq _ _ _).addEq _ _ _).addEq _ _ _).solve

/-- A region may repeat an atom, list one that is not registered and leave the released one out. -/
theorem neighbours_released : neighbours.Built ∧ neighbours.value 0 = .wild ∧
    (neighbours.makeNonWild 0 [1, 7, 1]).1 = [0, 1] ∧ 0 ∈ (neighbours.makeNonWild 0 [1, 7, 1]).2.erased ∧
    1 ∉ (neighbours.makeNonWild 0 [1, 7, 1]).2.erased ∧ .wild ≤ (neighbours.makeNonWild 0 [1, 7, 1]).2.value 2 ∧
    neighbours.makeNonWild 7 [0] = ([], neighbours) := by
  obtain ⟨-, hframe, -⟩ := release_frame neighbours_built 0 [1, 7, 1]
  have h := hframe (by decide)
  obtain ⟨hnone, -, -⟩ := release_frame neighbours_built 7 [0]
  refine ⟨neighbours_built, by decide, by decide, (h.erased 0).2 (by decide), mt (h.erased 1).1 (by decide), ?_,
    hnone (by decide)⟩
  exact h.outside 2 (by decide) (by decide)

end Store

end PointerKinds
