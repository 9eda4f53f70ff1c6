/-
Components, and who is promoted.

Plain arrays are connected if equalities in force lead from the one to the other without leaving
the plain arrays.  The walk over neighbours meets exactly those that its start is connected to:
it stays among them because every step follows an equality, and it misses none because an atom
leaves the stack only with all its neighbours met.  No atom is met twice, so the stack runs empty.

An atom's peers are all it is joined to, plain arrays or not.  Where all of them are plain arrays
together with it, they are what it is connected to.  What speaks for or against a promotion is
then the same in every run over a store, and only the kinds decide which atoms are promoted.
-/
import Mathlib.Data.List.Nodup
import Mathlib.Data.List.Perm.Subperm
import PointerKinds.Proofs.Solver.Rules

namespace PointerKinds

namespace Store

variable {s t : Store} {x y : AtomKey}

/-- An equality in force joins two atoms. -/
def Joined (s : Store) (x y : AtomKey) : Prop := s.InForce (.join x y) ∨ s.InForce (.join y x)

/-- All that an atom is joined to, through any number of others. -/
abbrev Peers (s : Store) : AtomKey → AtomKey → Prop := Relation.ReflTransGen s.Joined

/-- An equality in force joins two plain arrays. -/
def ArrJoined (s : Store) (E : AtomKey → Kind) (x y : AtomKey) : Prop := s.Joined x y ∧ E x = .arr ∧ E y = .arr

/-- Equalities between plain arrays lead from one atom to another. -/
abbrev Connected (s : Store) (E : AtomKey → Kind) : AtomKey → AtomKey → Prop :=
  Relation.ReflTransGen (s.ArrJoined E)

/-- One of the peers speaks for promotion, and none stands against it. -/
def Eager (s : Store) (x : AtomKey) : Prop :=
  (∃ y, s.Peers x y ∧ Run.wantsPromotion s y = true) ∧
    ∀ y, s.Peers x y → Run.blocksPromotion s y = false

variable {E : AtomKey → Kind}

theorem Connected.symm (h : s.Connected E x y) : s.Connected E y x := by
  have hjoined : Std.Symm (s.ArrJoined E) := ⟨fun _ _ hab => ⟨hab.1.symm, hab.2.2, hab.2.1⟩⟩
  exact Relation.ReflTransGen.stdSymm.symm x y h

/-- A plain array is connected to plain arrays only. -/
theorem Connected.arr (h : s.Connected E x y) (hx : E x = .arr) : E y = .arr := by
  cases h with
  | refl => exact hx
  | tail _ hjoined => exact hjoined.2.2

/-- Where plain arrays are joined to plain arrays only, they are connected to all their peers. -/
theorem connected_iff_peers (harr : ∀ a b, s.Joined a b → E a = .arr → E b = .arr) (hx : E x = .arr) :
    s.Connected E x y ↔ s.Peers x y := by
  constructor
  · intro h
    exact Relation.ReflTransGen.mono (fun _ _ hab => hab.1) x y h
  · intro h
    induction h with
    | refl => exact .refl
    | tail _ hab ih => exact ih.tail ⟨hab, ih.arr hx, harr _ _ hab (ih.arr hx)⟩

end Store

namespace Run

variable {s : Store} {run : Run} {x y z : AtomKey} {met stack l : List AtomKey}

/-! ### Neighbours -/

theorem atomAtom?_eq_some {f : Formula} {a b : AtomKey} : f.atomAtom? = some (a, b) ↔ f = .join a b := by
  unfold Formula.atomAtom?
  split
  · rw [Option.some.injEq, Prod.mk.injEq, Formula.eq.injEq, Operand.atom.injEq, Operand.atom.injEq]
  · rename_i hne
    constructor
    · intro h
      exact nomatch h
    · intro h
      exact absurd h (hne a b)

theorem mem_arrNeighbours (hs : s.Indexed) :
    y ∈ run.arrNeighbours s x ↔ s.Joined x y ∧ run.value y = .arr := by
  unfold arrNeighbours
  rw [List.mem_filterMap]
  constructor
  · intro h
    obtain ⟨c, hc, h⟩ := h
    obtain ⟨hc, hx⟩ := hs.mem_formulasAt_iff.1 hc
    cases hsides : c.2.atomAtom? with
    | none =>
        rw [hsides] at h
        exact nomatch h
    | some ab =>
        obtain ⟨a, b⟩ := ab
        have hjoin : c.2 = .join a b := atomAtom?_eq_some.1 hsides
        have hforce : s.InForce (.join a b) := ⟨c.1, hjoin ▸ hc⟩
        rw [hjoin] at hx
        by_cases hax : a = x
        · simp only [hsides, if_pos hax] at h
          split at h
          · rename_i harr
            obtain rfl := Option.some.inj h
            exact ⟨.inl (hax ▸ hforce), harr⟩
          · exact nomatch h
        · have hbx : x = b := by
            simp only [Formula.mentions, Operand.key?, Option.toList, List.mem_append,
              List.mem_singleton] at hx
            exact hx.resolve_left fun e => hax e.symm
          simp only [hsides, if_neg hax] at h
          split at h
          · rename_i harr
            obtain rfl := Option.some.inj h
            exact ⟨.inr (hbx ▸ hforce), harr⟩
          · exact nomatch h
  · intro h
    obtain ⟨hjoin, harr⟩ := h
    rcases hjoin with ⟨id, hf⟩ | ⟨id, hf⟩
    · refine ⟨(id, .join x y), hs.mem_formulasAt_iff.2 ⟨hf, by simp [Formula.mentions, Operand.key?]⟩, ?_⟩
      simp [Formula.atomAtom?, harr]
    · refine ⟨(id, .join y x), hs.mem_formulasAt_iff.2 ⟨hf, by simp [Formula.mentions, Operand.key?]⟩, ?_⟩
      by_cases hyx : y = x
      · subst hyx
        simp [Formula.atomAtom?, harr]
      · simp [Formula.atomAtom?, harr, hyx]

theorem mem_arrAtoms : x ∈ run.arrAtoms ↔ run.value x = .arr := by
  unfold arrAtoms
  rw [List.mem_filter, decide_eq_true_eq]
  refine and_iff_right_of_imp ?_
  intro h
  rw [SortedMap.mem_keys_iff]
  unfold value SortedMap.getD at h
  unfold SortedMap.contains
  cases hget : run.env.get? x with
  | none =>
      rw [hget] at h
      exact absurd h (by decide)
  | some k => rfl

/-! ### The walk -/

/-- Meeting atoms adds those that are new, to the atoms met and to the stack alike. -/
theorem foldl_meet_spec (l met stack : List AtomKey) (hnodup : met.Nodup) :
    let after := l.foldl meet (met, stack)
    after.1.Nodup ∧ (∀ x, x ∈ after.1 ↔ x ∈ met ∨ x ∈ l) ∧
      (∀ x, x ∈ after.2 ↔ x ∈ stack ∨ x ∈ l ∧ x ∉ met) ∧
      after.1.length + stack.length = met.length + after.2.length := by
  induction l generalizing met stack with
  | nil => simp [hnodup]
  | cons key rest ih =>
      rw [List.foldl_cons]
      by_cases hmem : key ∈ met
      · have hmeet : meet (met, stack) key = (met, stack) := by simp [meet, hmem]
        rw [hmeet]
        obtain ⟨hnodup', hmet, hstack, hlength⟩ := ih met stack hnodup
        refine ⟨hnodup', fun x => ?_, fun x => ?_, hlength⟩
        · rw [hmet, List.mem_cons]
          by_cases hx : x = key <;> simp [hx, hmem]
        · rw [hstack, List.mem_cons]
          by_cases hx : x = key <;> simp [hx, hmem]
      · have hmeet : meet (met, stack) key = (met ++ [key], key :: stack) := by simp [meet, hmem]
        have hnew : (met ++ [key]).Nodup := by
          refine List.nodup_append.2 ⟨hnodup, List.nodup_singleton key, fun x hx y hy => ?_⟩
          rw [List.mem_singleton.1 hy]
          rintro rfl
          exact hmem hx
        rw [hmeet]
        obtain ⟨hnodup', hmet, hstack, hlength⟩ := ih (met ++ [key]) (key :: stack) hnew
        refine ⟨hnodup', fun x => ?_, fun x => ?_, ?_⟩
        · rw [hmet, List.mem_append, List.mem_singleton, List.mem_cons, or_assoc]
        · rw [hstack, List.mem_append, List.mem_singleton, List.mem_cons, List.mem_cons]
          by_cases hx : x = key <;> simp [hx, hmem]
        · simp only [List.length_append, List.length_cons, List.length_nil] at hlength
          omega

/-- A walk under way: what was met is a plain array, and whatever is off the stack has all
its neighbours met. -/
structure Walk (s : Store) (run : Run) (met stack : List AtomKey) : Prop where
  nodup : met.Nodup
  stacked : ∀ x ∈ stack, x ∈ met
  arr : ∀ x ∈ met, run.value x = .arr
  closed : ∀ x ∈ met, x ∉ stack → ∀ y ∈ run.arrNeighbours s x, y ∈ met

theorem walk_nil : Walk s run [] [] := by
  refine ⟨List.nodup_nil, ?_, ?_, ?_⟩
  all_goals
    intro a ha
    exact absurd ha List.not_mem_nil

/-- A walk that has ended can be taken up again from an atom that it did not meet. -/
theorem Walk.start (h : Walk s run met []) (hx : run.value x = .arr) (hnew : x ∉ met) :
    Walk s run (met ++ [x]) [x] := by
  refine ⟨?_, ?_, ?_, ?_⟩
  · rw [List.nodup_append]
    refine ⟨h.nodup, List.nodup_singleton x, ?_⟩
    intro a ha b hb hab
    rw [List.mem_singleton] at hb
    exact hnew (hb ▸ hab ▸ ha)
  · intro a ha
    exact List.mem_append_right met ha
  · intro a ha
    rcases List.mem_append.1 ha with ha | ha
    · exact h.arr a ha
    · rw [List.mem_singleton.1 ha]
      exact hx
  · intro a ha hnot b hb
    rcases List.mem_append.1 ha with ha | ha
    · exact List.mem_append_left [x] (h.closed a ha List.not_mem_nil b hb)
    · exact absurd ha hnot

theorem Walk.step (hs : s.Indexed) (h : Walk s run met (x :: stack)) :
    let after := (run.arrNeighbours s x).foldl meet (met, stack)
    Walk s run after.1 after.2 ∧ after.1.length + stack.length = met.length + after.2.length := by
  obtain ⟨hnodup, hmet, hstack, hlength⟩ := foldl_meet_spec (run.arrNeighbours s x) met stack h.nodup
  refine ⟨⟨hnodup, fun y hy => ?_, fun y hy => ?_, fun y hy hnot z hz => ?_⟩, hlength⟩
  · rw [hmet]
    rcases (hstack y).1 hy with hy | hy
    · exact .inl (h.stacked y (List.mem_cons_of_mem x hy))
    · exact .inr hy.1
  · rcases (hmet y).1 hy with hy | hy
    · exact h.arr y hy
    · exact ((mem_arrNeighbours hs).1 hy).2
  · rw [hmet]
    by_cases hyx : y = x
    · exact .inr (hyx ▸ hz)
    · rw [hstack] at hnot
      have hold : y ∈ met := by
        rcases (hmet y).1 hy with hy | hy
        · exact hy
        · by_contra hnew
          exact hnot (.inr ⟨hy, hnew⟩)
      refine .inl (h.closed y hold ?_ z hz)
      rw [List.mem_cons]
      intro hmem
      rcases hmem with hmem | hmem
      · exact hyx hmem
      · exact hnot (.inl hmem)

theorem Walk.length_le (h : Walk s run met stack) : met.length ≤ run.arrAtoms.length :=
  (List.subperm_of_subset h.nodup fun y hy => mem_arrAtoms.2 (h.arr y hy)).length_le

/-- The walk ends with an empty stack. -/
theorem Walk.explore (hs : s.Indexed) (fuel : Nat) (h : Walk s run met stack)
    (hfuel : run.arrAtoms.length + stack.length ≤ fuel + met.length) :
    Walk s run (explore s run fuel met stack) [] ∧ ∀ x ∈ met, x ∈ explore s run fuel met stack := by
  induction fuel generalizing met stack with
  | zero =>
      have hlength := h.length_le
      cases stack with
      | nil => exact ⟨h, fun _ hx => hx⟩
      | cons x stack =>
          rw [List.length_cons] at hfuel
          omega
  | succ fuel ih =>
      cases stack with
      | nil => exact ⟨h, fun _ hx => hx⟩
      | cons x stack =>
          obtain ⟨hwalk, hlength⟩ := h.step hs
          obtain ⟨-, hmet, -, -⟩ := foldl_meet_spec (run.arrNeighbours s x) met stack h.nodup
          rw [List.length_cons] at hfuel
          obtain ⟨hend, hkept⟩ := ih hwalk (by omega)
          exact ⟨hend, fun y hy => hkept y ((hmet y).2 (.inl hy))⟩

/-- The walk stays inside whatever its steps stay inside. -/
theorem explore_subset {Q : AtomKey → Prop}
    (hQ : ∀ x y, Q x → y ∈ run.arrNeighbours s x → Q y) (fuel : Nat) (hmet : ∀ x ∈ met, Q x)
    (hstack : ∀ x ∈ stack, Q x) : ∀ x ∈ explore s run fuel met stack, Q x := by
  induction fuel generalizing met stack with
  | zero => cases stack <;> exact hmet
  | succ fuel ih =>
      cases stack with
      | nil => exact hmet
      | cons key stack =>
          have hkey := hstack key List.mem_cons_self
          have hfold : ∀ (l : List AtomKey) (state : List AtomKey × List AtomKey), (∀ x ∈ l, Q x) →
              (∀ x ∈ state.1, Q x) → (∀ x ∈ state.2, Q x) →
              (∀ x ∈ (l.foldl meet state).1, Q x) ∧ ∀ x ∈ (l.foldl meet state).2, Q x := by
            intro l
            induction l with
            | nil => exact fun _ _ h₁ h₂ => ⟨h₁, h₂⟩
            | cons y rest ihl =>
                intro state hl h₁ h₂
                have hy := hl y List.mem_cons_self
                rw [List.foldl_cons]
                have hrest : ∀ x ∈ rest, Q x := fun x hx => hl x (List.mem_cons_of_mem y hx)
                unfold meet
                split
                · exact ihl state hrest h₁ h₂
                · refine ihl _ hrest (fun x hx => ?_) fun x hx => ?_
                  · rcases List.mem_append.1 hx with hx | hx
                    · exact h₁ x hx
                    · exact List.mem_singleton.1 hx ▸ hy
                  · rcases List.mem_cons.1 hx with rfl | hx
                    · exact hy
                    · exact h₂ x hx
          obtain ⟨h₁, h₂⟩ := hfold (run.arrNeighbours s key) (met, stack)
            (fun y hy => hQ key y hkey hy) hmet
            (fun y hy => hstack y (List.mem_cons_of_mem key hy))
          exact ih h₁ h₂

/-- Where a walk has ended, equalities lead nowhere new. -/
theorem Walk.connected (hs : s.Indexed) (h : Walk s run met []) (hx : x ∈ met)
    (hxy : s.Connected run.value x y) : y ∈ met := by
  induction hxy with
  | refl => exact hx
  | tail _ hjoined ih =>
      exact h.closed _ ih List.not_mem_nil _ ((mem_arrNeighbours hs).2 ⟨hjoined.1, hjoined.2.2⟩)

/-- **A walk meets what its start is connected to.**  It may have met others before. -/
theorem Walk.mem_explore_iff (hs : s.Indexed) (h : Walk s run met []) (hx : run.value x = .arr) (hnew : x ∉ met) :
    Walk s run (run.explore s (run.arrAtoms.length + 1) (met ++ [x]) [x]) [] ∧
      ∀ y, y ∈ run.explore s (run.arrAtoms.length + 1) (met ++ [x]) [x] ↔ y ∈ met ∨ s.Connected run.value x y := by
  obtain ⟨hend, hkept⟩ := (h.start hx hnew).explore hs (run.arrAtoms.length + 1) (by simp)
  refine ⟨hend, fun y => ⟨?_, ?_⟩⟩
  · refine explore_subset (Q := fun y => y ∈ met ∨ s.Connected run.value x y) ?_ _ ?_ ?_ y
    · intro a b ha hb
      rcases ha with ha | ha
      · exact .inl (h.closed a ha List.not_mem_nil b hb)
      · obtain ⟨hjoined, harr⟩ := (mem_arrNeighbours hs).1 hb
        exact .inr (ha.tail ⟨hjoined, ha.arr hx, harr⟩)
    · intro a ha
      rcases List.mem_append.1 ha with ha | ha
      · exact .inl ha
      · rw [List.mem_singleton.1 ha]
        exact .inr .refl
    · intro a ha
      rw [List.mem_singleton.1 ha]
      exact .inr .refl
  · intro hy
    rcases hy with hy | hy
    · exact hkept y (List.mem_append_left [x] hy)
    · exact hend.connected hs (hkept x (List.mem_append_right met (List.mem_singleton_self x))) hy

/-- The component of a plain array is all that it is connected to. -/
theorem mem_component (hs : s.Indexed) (hx : run.value x = .arr) :
    y ∈ run.component s x ↔ s.Connected run.value x y := by
  have hwalk := (walk_nil.mem_explore_iff hs hx List.not_mem_nil).2 y
  rwa [or_iff_right List.not_mem_nil] at hwalk

/-- Where plain arrays are joined to plain arrays only, the component of one is all its peers. -/
theorem mem_component_iff (hs : s.Indexed) (harr : ∀ a b, s.Joined a b → run.value a = .arr → run.value b = .arr)
    (hx : run.value x = .arr) : y ∈ run.component s x ↔ s.Peers x y :=
  (mem_component hs hx).trans (Store.connected_iff_peers harr hx)

/-- Then exactly the plain arrays with eager peers are promoted. -/
theorem mem_promotions_iff (hs : s.Indexed)
    (harr : ∀ a b, s.Joined a b → run.value a = .arr → run.value b = .arr) :
    x ∈ run.promotions s ↔ run.value x = .arr ∧ s.Eager x := by
  unfold promotions Store.Eager
  rw [List.mem_filter, mem_arrAtoms]
  refine and_congr_right fun hx => ?_
  simp only [Bool.and_eq_true, Bool.not_eq_true', List.any_eq_true, List.any_eq_false,
    mem_component_iff hs harr hx, Bool.not_eq_true]

/-! ### What decides -/

theorem wantsPromotion_iff :
    wantsPromotion s x = true ↔ ∃ a, s.atoms.get? x = some a ∧ a.soft.wantsNtArr = true := by
  unfold wantsPromotion
  cases s.atoms.get? x <;> simp

theorem blocksPromotion_eq_false_iff (hs : s.Indexed) :
    blocksPromotion s x = false ↔ ¬ s.InForce (.pin x .arr) ∧
      ∃ a, s.atoms.get? x = some a ∧ a.soft.shouldBeArr = false ∧ a.permits .ntArr = true := by
  have hpin : (s.formulasAt x).any (fun c => c.2.atomKind? = some (x, .arr)) = false ↔
      ¬ s.InForce (.pin x .arr) := by
    rw [← Bool.not_eq_true, not_iff_not, List.any_eq_true]
    constructor
    · intro h
      obtain ⟨c, hc, h⟩ := h
      refine ⟨c.1, ?_⟩
      have hshape : c.2 = .pin x .arr := by
        have h := of_decide_eq_true h
        unfold Formula.atomKind? at h
        split at h
        · rename_i he
          obtain ⟨rfl, rfl⟩ := Prod.mk.inj (Option.some.inj h)
          exact he
        · exact nomatch h
      rw [← hshape]
      exact (hs.mem_formulasAt_iff.1 hc).1
    · intro h
      obtain ⟨id, hf⟩ := h
      refine ⟨(id, .pin x .arr), hs.mem_formulasAt_iff.2 ⟨hf, by simp [Formula.mentions, Operand.key?]⟩, ?_⟩
      simp [Formula.atomKind?]
  unfold blocksPromotion
  cases ha : s.atoms.get? x with
  | none => simp
  | some a => simp [hpin, and_comm, and_assoc]

end Run

namespace Store

variable {s t : Store} {x : AtomKey}

/-- Eagerness depends on the peers alone: on what joins and pins them, on their filters and
on their preferences. -/
theorem Eager.transfer (hs : s.Indexed) (ht : t.Indexed) (h : s.Eager x)
    (hpeers : ∀ y, t.Peers x y ↔ s.Peers x y)
    (hpin : ∀ y, s.Peers x y → t.InForce (.pin y .arr) → s.InForce (.pin y .arr))
    (hfilter : s.SameFilters t) (hsoft : ∀ y, (t.atoms.get? y).map (·.soft) = (s.atoms.get? y).map (·.soft)) :
    t.Eager x := by
  obtain ⟨⟨y, hy, hwants⟩, hblocks⟩ := h
  refine ⟨⟨y, (hpeers y).2 hy, ?_⟩, fun z hz => ?_⟩
  · obtain ⟨a, ha, hwants⟩ := Run.wantsPromotion_iff.1 hwants
    have hkey := hsoft y
    rw [ha, Option.map_some] at hkey
    obtain ⟨b, hb, he⟩ := Option.map_eq_some_iff.1 hkey
    exact Run.wantsPromotion_iff.2 ⟨b, hb, by rw [he]; exact hwants⟩
  · have hz := (hpeers z).1 hz
    obtain ⟨hnot, a, ha, harr, hpermits⟩ := (Run.blocksPromotion_eq_false_iff hs).1 (hblocks z hz)
    refine (Run.blocksPromotion_eq_false_iff ht).2 ⟨fun hf => hnot (hpin z hz hf), ?_⟩
    have hkey := hsoft z
    rw [ha, Option.map_some] at hkey
    obtain ⟨b, hb, he⟩ := Option.map_eq_some_iff.1 hkey
    obtain ⟨b', hb', hp⟩ := Permits.congr (show s.Permits z .ntArr from ⟨a, ha, hpermits⟩) hfilter
    obtain rfl := Option.some.inj (hb.symm.trans hb')
    exact ⟨b, hb, by rw [he]; exact harr, hp⟩

end Store

end PointerKinds
