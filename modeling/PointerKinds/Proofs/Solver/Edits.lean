/-
Edits keep the unchecked atoms exactly the reachable ones.

`Reached` says which atoms the constraints in force make unchecked.  A store that was
solved has exactly those unchecked: no fewer, because everything is settled, and no
more, because every unchecked atom is justified.

Making one atom checked again puts its group back to checked pointers, erases what held
it, and solves the group alone.  Nothing outside the group is unsettled by that, since
whatever mentions an atom of the group is visited.  And nothing outside is left without
its justification: an atom is in one group with the atom it was made unchecked by, so a
justification that starts outside stays outside, and the constraints erased all mention
the atom that is inside.
-/
import PointerKinds.Proofs.Store.Recorded

namespace PointerKinds

namespace Store

variable {s t : Store} {x y a b key : AtomKey} {k : Kind} {id : ConstraintId} {f : Formula}
  {region seeds : List AtomKey}

/-- The least set of atoms that the constraints in force make unchecked. -/
inductive Reached (s : Store) : AtomKey → Prop
  | pin {x : AtomKey} (hf : s.InForce (.pin x .wild)) (hp : s.Permits x .wild) : Reached s x
  | join {a b : AtomKey} (hf : s.InForce (.join a b)) (ha : Reached s a) (hp : s.Permits b .wild) :
      Reached s b
  | joinBack {a b : AtomKey} (hf : s.InForce (.join a b)) (hb : Reached s b)
      (hp : s.Permits a .wild) : Reached s a
  | flow {a b : AtomKey} (hf : s.InForce (.flow a b .wild)) (ha : Reached s a)
      (hp : s.Permits b .wild) : Reached s b

/-- A store between two edits: everything is settled, and every unchecked atom explained. -/
structure Steady (s : Store) : Prop where
  indexed : s.Indexed
  demand : ∀ id ∈ s.topLevel, ∀ f, s.formula? id = some f → f.IsDemand
  calm : Run.Calm s (Run.start s)
  explained : Run.Explained s (Run.start s)

theorem isDemand_of_inForce (hdemand : ∀ id ∈ s.topLevel, ∀ f, s.formula? id = some f → f.IsDemand)
    (h : s.InForce f) : f.IsDemand := by
  obtain ⟨id, hf⟩ := h
  obtain ⟨hact, hformula⟩ := mem_activeFormulas.1 hf
  exact hdemand id (isActive_iff.1 hact).1 f hformula

theorem Reached.unchecked (h : s.Reached x) : s.Unchecked x := by
  induction h with
  | pin hf hp => exact .pin hf hp
  | join hf _ hp ih => exact .join hf hp ih
  | joinBack hf _ hp ih => exact .joinBack hf hp ih
  | flow hf _ hp ih => exact .guardedPin hf hp ih

theorem Justified.reached {causes : SortedMap AtomKey ConstraintId} (h : s.Justified causes x) :
    s.Reached x := by
  induction h with
  | pin _ hf hp => exact .pin ⟨_, hf⟩ hp
  | join _ hf hp _ ih => exact .joinBack ⟨_, hf⟩ ih hp
  | joinBack _ hf hp _ ih => exact .join ⟨_, hf⟩ ih hp
  | flow _ hf hp _ ih => exact .flow ⟨_, hf⟩ ih hp

/-- Between edits, exactly the reachable atoms are unchecked. -/
theorem Steady.value_eq_wild_iff (h : s.Steady) : s.value x = .wild ↔ s.Reached x := by
  constructor
  · intro hx
    exact (h.explained.justified x hx).reached
  · intro hx
    exact h.calm.value_eq_wild (fun f hf => (isDemand_of_inForce h.demand hf).isRule)
      (fun _ => le_refl _) hx.unchecked

/-! ### Solving -/

/-- Taking over a round leaves a store settled and explained. -/
theorem steady_commit (hs : s.Indexed)
    (hdemand : ∀ id ∈ s.topLevel, ∀ f, s.formula? id = some f → f.IsDemand)
    (hprimed : Run.Primed s seeds) (hexplained : Run.Explained s (Run.start s)) :
    (s.commit (s.solution seeds).run).Steady := by
  obtain ⟨hrun, -, -⟩ := solution_spec hs hprimed
  have hrest := (Run.round_spec hs hprimed (s.solution seeds).blocked).2
  have hwhy := Run.explained_round hs hprimed (fun f hf => isDemand_of_inForce hdemand hf) hexplained
    (s.solution seeds).blocked
  rw [← hrun] at hrest hwhy
  generalize (s.solution seeds).run = run at hrest hwhy
  refine ⟨hs.commit run, hdemand, fun c hc hflat => ?_, hwhy.wild, fun x hx => ?_⟩
  · intro key k hask
    have hval : (Run.start (s.commit run)).value = run.value := rfl
    have hask' : run.Asks c.2 key k := hask.of_fired_subset hval (List.nil_subset _)
    exact (hrest.calm c hc hflat key k hask').congr fun _ => rfl
  · exact (hwhy.justified x hx).transfer (fun _ => True) trivial (fun _ _ _ _ _ _ _ _ _ => trivial)
      (fun _ _ _ _ hc hf _ => ⟨hc, hf⟩) fun _ => rfl

theorem value_reset (s : Store) (x : AtomKey) : s.reset.value x = .ptr := by
  unfold value reset SortedMap.getD
  simp only [SortedMap.get?_mapValues]
  cases s.env.get? x <;> rfl

/-- Nothing is left to explain once every atom is put back to a checked pointer. -/
theorem explained_reset (s : Store) : Run.Explained s.reset (Run.start s.reset) := by
  constructor
  · intro x id hx
    exact absurd hx (by simp [Run.start, reset, show (∅ : SortedMap AtomKey ConstraintId).get? x = none from rfl])
  · intro x hx
    have hptr : (Run.start s.reset).value x = .ptr := value_reset s x
    rw [hptr] at hx
    exact absurd hx (by decide)

theorem steady_solve_reset (hs : s.Indexed)
    (hdemand : ∀ id ∈ s.topLevel, ∀ f, s.formula? id = some f → f.IsDemand) :
    s.reset.solve.2.Steady :=
  steady_commit hs.reset hdemand (primed_keys hs.reset) (explained_reset s)

theorem Steady.solve (h : s.Steady) : s.solve.2.Steady :=
  steady_commit h.indexed h.demand (primed_keys h.indexed) h.explained

/-- A fresh store has nothing to explain. -/
theorem Fresh.explained (h : s.Fresh) : Run.Explained s (Run.start s) := by
  constructor
  · intro x id hx
    exact nomatch (h.uncaused x).symm.trans hx
  · intro x hx
    exact nomatch (h.checked x).symm.trans hx

theorem Fresh.demand_topLevel (h : s.Fresh) :
    ∀ id ∈ s.topLevel, ∀ f, s.formula? id = some f → f.IsDemand :=
  fun id hid f hf => h.demand f (h.inForce_iff.2 ⟨id, hid, hf⟩)

/-- Solving a fresh store makes it steady. -/
theorem Fresh.steady_solve (h : s.Fresh) : s.solve.2.Steady :=
  steady_commit h.indexed h.demand_topLevel (primed_keys h.indexed) h.explained

/-! ### Erasing and restoring -/

theorem demand_eraseAll (hdemand : ∀ id ∈ s.topLevel, ∀ f, s.formula? id = some f → f.IsDemand)
    (ids : List ConstraintId) : ∀ id ∈ (ids.foldl erase s).topLevel, ∀ f,
      (ids.foldl erase s).formula? id = some f → f.IsDemand := by
  obtain ⟨harena, htop, -⟩ := eraseAll_frame s ids
  simp only [htop, formula?, constraint?, harena]
  exact hdemand

/-- Erasing a reason solves from scratch, so nothing is asked of what was solved before. -/
theorem steady_eraseReason (hs : s.Indexed)
    (hdemand : ∀ id ∈ s.topLevel, ∀ f, s.formula? id = some f → f.IsDemand) (ids : List ConstraintId)
    (reason : String) : ((ids.foldl erase s).eraseReason reason).2.2.Steady :=
  steady_solve_reset ((hs.eraseAll _).eraseAll _) (demand_eraseAll (demand_eraseAll hdemand _) _)

theorem steady_restore (hs : s.Indexed)
    (hdemand : ∀ id ∈ s.topLevel, ∀ f, s.formula? id = some f → f.IsDemand) (key : AtomKey) :
    (s.restore key).reset.solve.2.Steady := by
  refine steady_solve_reset (hs.restore key) ?_
  obtain ⟨harena, htop, -⟩ := reinstateAll_spec (s.restorable key) (s.modifyAtom key (·.restoreAll))
  have harena : (s.restore key).arena = s.arena := harena
  have htop : (s.restore key).topLevel = s.topLevel := htop
  simp only [htop, formula?, constraint?, harena]
  exact hdemand

/-! ### Making one atom checked again -/

theorem value_lower (s : Store) (keys : List AtomKey) (x : AtomKey) :
    (s.lower keys).value x = if x ∈ keys then .ptr else s.value x := by
  have hfold : ∀ (keys : List AtomKey) (env : SortedMap AtomKey Kind),
      (keys.foldl (fun env key => env.insert key .ptr) env).getD x .ptr =
        if x ∈ keys then .ptr else env.getD x .ptr := by
    intro keys
    induction keys with
    | nil => simp
    | cons key rest ih =>
        intro env
        rw [List.foldl_cons, ih]
        unfold SortedMap.getD
        rw [SortedMap.get?_insert]
        by_cases hx : x = key <;> simp [hx]
  exact hfold keys s.env

theorem forcedBy_lower (s : Store) (keys : List AtomKey) (x : AtomKey) :
    (s.lower keys).forcedBy.get? x = if x ∈ keys then none else s.forcedBy.get? x := by
  have hfold : ∀ (keys : List AtomKey) (causes : SortedMap AtomKey ConstraintId),
      (keys.foldl (fun causes key => causes.erase key) causes).get? x =
        if x ∈ keys then none else causes.get? x := by
    intro keys
    induction keys with
    | nil => simp
    | cons key rest ih =>
        intro causes
        rw [List.foldl_cons, ih, SortedMap.get?_erase]
        by_cases hx : x = key <;> simp [hx]
  exact hfold keys s.forcedBy

theorem mentions_of_mem_wildForcing (hs : s.Indexed) (h : id ∈ s.wildForcing key)
    (hf : (id, f) ∈ s.activeFormulas) : key ∈ f.mentions := by
  obtain ⟨c, hc, rfl⟩ := List.mem_map.1 h
  obtain ⟨hact, hk⟩ := hs.mem_formulasAt_iff.1 (List.mem_filter.1 hc).1
  have hformula := (mem_activeFormulas.1 hact).2
  rw [(mem_activeFormulas.1 hf).2] at hformula
  rwa [Option.some.inj hformula]

/-- An atom without a kind counts as a checked pointer. -/
theorem contains_env_of_wild (h : s.value x = .wild) : s.env.contains x = true := by
  unfold value SortedMap.getD at h
  unfold SortedMap.contains
  cases hget : s.env.get? x with
  | none =>
      rw [hget] at h
      exact absurd h (by decide)
  | some k => rfl

theorem mem_wildAtoms : x ∈ s.wildAtoms ↔ s.value x = .wild := by
  unfold wildAtoms
  rw [List.mem_filter, decide_eq_true_eq]
  exact and_iff_right_of_imp fun hx => (SortedMap.mem_keys_iff ..).2 (contains_env_of_wild hx)

/-- The remembered constraint tells where an atom has its kind from. -/
theorem wildSource_eq (hx : s.forcedBy.get? a = some id) (hf : (id, f) ∈ s.activeFormulas)
    (hshape : f = .join a b ∨ f = .join b a ∨ f = .flow b a .wild) (hb : s.value b = .wild) :
    s.wildSource a = .atom b := by
  obtain ⟨c, hc, rfl⟩ := Option.map_eq_some_iff.1 (mem_activeFormulas.1 hf).2
  unfold wildSource sourceIn
  rw [hx, Option.bind_some, hc]
  rcases hshape with he | he | he
  · simp only [he, Formula.otherAtom?, Formula.otherSide?, if_true, Option.bind_some, Operand.key?]
  · by_cases hab : b = a
    · subst hab
      simp only [he, Formula.otherAtom?, Formula.otherSide?, if_true, Option.bind_some, Operand.key?]
    · have hne : Operand.atom b ≠ Operand.atom a := fun e => hab (Operand.atom.inj e)
      simp only [he, Formula.otherAtom?, Formula.otherSide?, if_neg hne, if_true, Option.bind_some,
        Operand.key?]
  · have hatoms : (Formula.pin b .wild).atoms.toList = [b] := rfl
    simp only [he, Formula.otherAtom?, Formula.otherSide?, if_true, Option.bind_some, Operand.key?,
      hatoms, List.find?_cons, hb, decide_true]

/-- The store in which a region is about to be solved again. -/
def released (s : Store) (key : AtomKey) (keys : List AtomKey) : Store :=
  ((s.wildForcing key).foldl erase s).lower keys

theorem value_released (s : Store) (key : AtomKey) (keys : List AtomKey) (x : AtomKey) :
    (s.released key keys).value x = if x ∈ keys then .ptr else s.value x := by
  unfold released
  rw [value_lower]
  have henv : ((s.wildForcing key).foldl erase s).env = s.env := (eraseAll_frame s _).2.2.1
  unfold value
  rw [henv]

theorem forcedBy_released (s : Store) (key : AtomKey) (keys : List AtomKey) (x : AtomKey) :
    (s.released key keys).forcedBy.get? x = if x ∈ keys then none else s.forcedBy.get? x := by
  unfold released
  rw [forcedBy_lower, (eraseAll_frame s _).2.2.2]

theorem mem_activeFormulas_released {keys : List AtomKey} :
    (id, f) ∈ (s.released key keys).activeFormulas ↔
      (id, f) ∈ s.activeFormulas ∧ id ∉ s.wildForcing key :=
  mem_activeFormulas_eraseAll

theorem sameFilters_released (s : Store) (key : AtomKey) (keys : List AtomKey) :
    s.SameFilters (s.released key keys) :=
  map_eraseAll forbidden_atom_erase (s.wildForcing key) s

/-- Outside the region everything is as settled as it was. -/
theorem Steady.primed_released (h : s.Steady) (key : AtomKey) (keys : List AtomKey) :
    Run.Primed (s.released key keys) keys := by
  refine Run.owed_iff.2 fun c hc hflat => ?_
  by_cases hmem : ∃ x ∈ c.2.mentions, x ∈ keys
  · exact .inr hmem
  · left
    have hval : ∀ x ∈ c.2.mentions,
        (Run.start (s.released key keys)).value x = (Run.start s).value x := by
      intro x hx
      show (s.released key keys).value x = s.value x
      rw [value_released, if_neg fun hk => hmem ⟨x, hx, hk⟩]
    intro x k hask
    have hmet := h.calm c (mem_activeFormulas_released.1 hc).1 hflat x k (hask.congr hflat hval rfl)
    exact (hmet.mono (le_of_eq (hval x hask.mem_mentions).symm)).congr (sameFilters_released s key keys)

/-- Outside the region of an atom, every justification stands. -/
theorem Steady.explained_released (h : s.Steady) {keys : List AtomKey} (hkey : key ∈ keys)
    (hkeys : ∀ x, s.value x = .wild → (x ∈ keys ↔ (RootCauses.ofStore s).Same key x)) :
    Run.Explained (s.released key keys) (Run.start (s.released key keys)) := by
  have hwild : ∀ {x : AtomKey}, s.Justified s.forcedBy x → s.value x = .wild := by
    intro x hx
    obtain ⟨id, hid⟩ := hx.caused
    exact h.explained.wild x id hid
  refine ⟨fun x id hx => ?_, fun x hx => ?_⟩
  · have hx : (s.released key keys).forcedBy.get? x = some id := hx
    show (s.released key keys).value x = .wild
    rw [forcedBy_released] at hx
    rw [value_released]
    by_cases hmem : x ∈ keys
    · rw [if_pos hmem] at hx
      exact absurd hx (by simp)
    · rw [if_neg hmem] at hx ⊢
      exact h.explained.wild x id hx
  · have hx : (s.released key keys).value x = .wild := hx
    rw [value_released] at hx
    by_cases hmem : x ∈ keys
    · rw [if_pos hmem] at hx
      exact absurd hx (by decide)
    rw [if_neg hmem] at hx
    refine (h.explained.justified x hx).transfer (· ∉ keys) hmem ?_ ?_ (sameFilters_released s key keys)
    · intro a b id f ha hid hf hshape hb hbmem
      have hawild := h.explained.wild a id hid
      have hsource := wildSource_eq hid hf hshape (hwild hb)
      have hsame := RootCauses.same_ofStore (mem_wildAtoms.2 hawild) (mem_wildAtoms.2 (hwild hb)) hsource
      exact ha ((hkeys a hawild).2 (((hkeys b (hwild hb)).1 hbmem).trans hsame.symm))
    · intro a id f ha hid hf hmentions
      refine ⟨?_, mem_activeFormulas_released.2 ⟨hf, fun hforcing => ?_⟩⟩
      · show (s.released key keys).forcedBy.get? a = some id
        rw [forcedBy_released, if_neg ha]
        exact hid
      · exact hmentions key (mentions_of_mem_wildForcing h.indexed hforcing hf) hkey

/-- The atoms that are put back to checked pointers together with an atom. -/
def regionAround (s : Store) (key : AtomKey) (region : List AtomKey) : List AtomKey :=
  (SortedSet.ofList
    (key :: region.filter ((s.wildForcing key).foldl erase s).atoms.contains)).toList

theorem makeNonWild_of_wild (hkey : s.value key = .wild) (region : List AtomKey) :
    (s.makeNonWild key region).2 = (s.released key (s.regionAround key region)).commit
      ((s.released key (s.regionAround key region)).solution (s.regionAround key region)).run := by
  unfold Store.makeNonWild
  rw [if_pos hkey]
  rfl

theorem makeNonWild_of_ne (hkey : s.value key ≠ .wild) (region : List AtomKey) :
    (s.makeNonWild key region).2 = s := by
  unfold Store.makeNonWild
  rw [if_neg hkey]

theorem sameFilters_makeNonWild (s : Store) (key : AtomKey) (region : List AtomKey) :
    s.SameFilters (s.makeNonWild key region).2 := by
  by_cases hkey : s.value key = .wild
  · rw [makeNonWild_of_wild hkey]
    exact sameFilters_released s key (s.regionAround key region)
  · rw [makeNonWild_of_ne hkey]
    exact fun _ => rfl

/-- The group of an unchecked atom, as far as the unchecked atoms go. -/
theorem Steady.mem_regionAround (h : s.Steady) (hkey : s.value key = .wild)
    (hregion : ∀ x, x ∈ region ↔ (RootCauses.ofStore s).Same key x) (hx : s.value x = .wild) :
    x ∈ s.regionAround key region ↔ (RootCauses.ofStore s).Same key x := by
  have hreg : ((s.wildForcing key).foldl erase s).atoms.contains x = true := by
    obtain ⟨a, ha, -⟩ := (h.explained.justified x hx).permits.congr (sameFilters_released s key [])
    unfold SortedMap.contains
    exact Option.isSome_iff_exists.2 ⟨a, ha⟩
  have hself : (RootCauses.ofStore s).Same key key := by
    obtain ⟨l, hl⟩ :=
      RootCauses.contains_iff.1 ((RootCauses.contains_ofStore s key).2 (mem_wildAtoms.2 hkey))
    exact ⟨l, hl, hl⟩
  unfold regionAround
  rw [← SortedSet.mem_def, SortedSet.mem_ofList, List.mem_cons, List.mem_filter, and_iff_left hreg,
    hregion x]
  refine or_iff_right_of_imp ?_
  rintro rfl
  exact hself

theorem self_mem_regionAround (s : Store) (key : AtomKey) (region : List AtomKey) :
    key ∈ s.regionAround key region := by
  unfold regionAround
  rw [← SortedSet.mem_def, SortedSet.mem_ofList]
  exact List.mem_cons_self

/-- Releasing the group of an unchecked atom keeps everything settled and explained. -/
theorem Steady.makeNonWild (h : s.Steady)
    (hregion : s.value key = .wild → ∀ x, x ∈ region ↔ (RootCauses.ofStore s).Same key x) :
    (s.makeNonWild key region).2.Steady := by
  by_cases hkey : s.value key = .wild
  · rw [makeNonWild_of_wild hkey]
    refine steady_commit ((h.indexed.eraseAll _).lower _) (demand_eraseAll h.demand _)
      (h.primed_released key _) (h.explained_released (self_mem_regionAround s key region) ?_)
    intro x hx
    exact h.mem_regionAround hkey (hregion hkey) hx
  · rw [makeNonWild_of_ne hkey]
    exact h

end Store

end PointerKinds
