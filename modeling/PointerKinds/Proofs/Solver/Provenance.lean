/-
Why an atom is unchecked.

The first constraint to make an atom unchecked is remembered, and it took the kind from
nothing or from an atom that was unchecked before.  So the remembered constraints lead
back to a pin, in finitely many steps: that is `Justified`, and `Explained` says it of
every unchecked atom of a run.  It holds at the start of a run from checked pointers and
is kept by every act, promotions included.

Nothing here says that an atom is unchecked only if some constraint in force makes it so
now.  It follows, because the constraints that are remembered are in force; an edit that
erases some of them has to show that none is still remembered.
-/
import PointerKinds.Proofs.RootCauses.Classes
import PointerKinds.Proofs.Solver.Rules

namespace PointerKinds

namespace Formula

/-- The shapes of formula that a recording leads to. -/
inductive IsDemand : Formula → Prop
  | pin (x : AtomKey) (k : Kind) : IsDemand (pin x k)
  | join (a b : AtomKey) : IsDemand (join a b)
  | flow (a b : AtomKey) {k : Kind} (hk : k ≠ .ptr) : IsDemand (flow a b k)

theorem IsDemand.isRule {f : Formula} (h : f.IsDemand) : f.IsRule := by
  cases h with
  | pin x k => exact .pin x k
  | join a b => exact .join a b
  | @flow a b k hk =>
      cases k with
      | ptr => exact absurd rfl hk
      | arr => exact .flow a b (.inl rfl)
      | ntArr => exact .flow a b (.inr rfl)
      | wild => exact .guardedPin a b .wild

end Formula

namespace Store

variable {s t : Store} {causes causes' : SortedMap AtomKey ConstraintId} {x y : AtomKey}

/-- The constraints remembered lead from an atom back to a pin. -/
inductive Justified (s : Store) (causes : SortedMap AtomKey ConstraintId) : AtomKey → Prop
  | pin {x : AtomKey} {id : ConstraintId} (hx : causes.get? x = some id)
      (hf : (id, .pin x .wild) ∈ s.activeFormulas) (hp : s.Permits x .wild) : Justified s causes x
  | join {x y : AtomKey} {id : ConstraintId} (hx : causes.get? x = some id)
      (hf : (id, .join x y) ∈ s.activeFormulas) (hp : s.Permits x .wild)
      (hy : Justified s causes y) : Justified s causes x
  | joinBack {x y : AtomKey} {id : ConstraintId} (hx : causes.get? x = some id)
      (hf : (id, .join y x) ∈ s.activeFormulas) (hp : s.Permits x .wild)
      (hy : Justified s causes y) : Justified s causes x
  | flow {x y : AtomKey} {id : ConstraintId} (hx : causes.get? x = some id)
      (hf : (id, .flow y x .wild) ∈ s.activeFormulas) (hp : s.Permits x .wild)
      (hy : Justified s causes y) : Justified s causes x

theorem Justified.caused (h : s.Justified causes x) : ∃ id, causes.get? x = some id := by
  cases h with
  | pin hx | join hx | joinBack hx | flow hx => exact ⟨_, hx⟩

theorem Justified.permits (h : s.Justified causes x) : s.Permits x .wild := by
  cases h with
  | pin _ _ hp | join _ _ hp | joinBack _ _ hp | flow _ _ hp => exact hp

/-- A justification stands as long as what it remembers does. -/
theorem Justified.transfer (h : s.Justified causes x) (P : AtomKey → Prop) (hx : P x)
    (hsource : ∀ a b id f, P a → causes.get? a = some id → (id, f) ∈ s.activeFormulas →
      f = .join a b ∨ f = .join b a ∨ f = .flow b a .wild → s.Justified causes b → P b)
    (hkeep : ∀ a id f, P a → causes.get? a = some id → (id, f) ∈ s.activeFormulas →
      (∀ b ∈ f.mentions, P b) → causes'.get? a = some id ∧ (id, f) ∈ t.activeFormulas)
    (hfilter : s.SameFilters t) : t.Justified causes' x := by
  induction h with
  | pin hc hf hp =>
      obtain ⟨hc', hf'⟩ := hkeep _ _ _ hx hc hf (by simp [Formula.mentions, Operand.key?, hx])
      exact .pin hc' hf' (hp.congr hfilter)
  | join hc hf hp hy ih =>
      have hPy := hsource _ _ _ _ hx hc hf (.inl rfl) hy
      obtain ⟨hc', hf'⟩ := hkeep _ _ _ hx hc hf (by simp [Formula.mentions, Operand.key?, hx, hPy])
      exact .join hc' hf' (hp.congr hfilter) (ih hPy)
  | joinBack hc hf hp hy ih =>
      have hPy := hsource _ _ _ _ hx hc hf (.inr (.inl rfl)) hy
      obtain ⟨hc', hf'⟩ := hkeep _ _ _ hx hc hf (by simp [Formula.mentions, Operand.key?, hx, hPy])
      exact .joinBack hc' hf' (hp.congr hfilter) (ih hPy)
  | flow hc hf hp hy ih =>
      have hPy := hsource _ _ _ _ hx hc hf (.inr (.inr rfl)) hy
      obtain ⟨hc', hf'⟩ := hkeep _ _ _ hx hc hf (by simp [Formula.mentions, Operand.key?, hx, hPy])
      exact .flow hc' hf' (hp.congr hfilter) (ih hPy)

theorem Justified.mono (h : s.Justified causes x)
    (hle : ∀ y id, causes.get? y = some id → causes'.get? y = some id) : s.Justified causes' x :=
  h.transfer (fun _ => True) trivial (fun _ _ _ _ _ _ _ _ _ => trivial)
    (fun a id _ _ hc hf _ => ⟨hle a id hc, hf⟩) fun _ => rfl

end Store

namespace Run

variable {s : Store} {run run' : Run} {blocked : List Formula} {seeds : List AtomKey}
  {x y : AtomKey} {k : Kind}

/-- Whoever is unchecked is so for a remembered reason, and only they are. -/
structure Explained (s : Store) (run : Run) : Prop where
  wild : ∀ x id, run.forcedBy.get? x = some id → run.value x = .wild
  justified : ∀ x, run.value x = .wild → s.Justified run.forcedBy x

/-- A raise remembers its constraint if it makes the atom unchecked, and else nothing. -/
theorem forcedBy_raise (s : Store) (id : ConstraintId) (run : Run) (x : AtomKey) (k : Kind) :
    ((run.raise s id x k).2.forcedBy = run.forcedBy ∧
      ∀ y, (run.raise s id x k).2.value y = .wild → run.value y = .wild) ∨
    ((run.raise s id x k).2.forcedBy = run.forcedBy.insertNew x id ∧ run.value x ≠ .wild ∧
      k = .wild ∧ s.Permits x .wild ∧ ∀ y, (run.raise s id x k).2.value y = .wild ↔
        y = x ∨ run.value y = .wild) := by
  rcases raise_cases s id run x k with ⟨e, -⟩ | ⟨a, -, -, -, e⟩ | ⟨a, g, run', ha, hg, hlt, hr, e⟩
  · rw [e]
    exact .inl ⟨rfl, fun _ h => h⟩
  · rw [e]
    exact .inl ⟨rfl, fun _ h => h⟩
  · have hsame : run'.forcedBy = run.forcedBy ∧ run'.value = run.value := by
      rcases hr with ⟨-, rfl⟩ | ⟨-, rfl⟩ <;> exact ⟨rfl, rfl⟩
    have hval : ∀ y, ((run'.assign x g (some id)).count 1).value y = if y = x then g else run.value y := by
      intro y
      rw [value_count, value_assign, hsame.2]
    rw [e]
    by_cases hwild : g = .wild
    · subst hwild
      refine .inr ⟨?_, ne_of_lt hlt, le_antisymm (Kind.le_wild k) (Atom.floor?_le hg),
        ⟨a, ha, Atom.permits_floor? hg⟩, fun y => ?_⟩
      · simp only [forcedBy_count, assign, if_true, hsame.1]
      · rw [hval]
        by_cases hy : y = x <;> simp [hy]
    · refine .inl ⟨by simp only [forcedBy_count, assign, if_neg hwild, hsame.1], fun y hy => ?_⟩
      rw [hval] at hy
      split at hy
      · exact absurd hy hwild
      · exact hy

/-- If only unchecked atoms have a constraint remembered, a raise that makes one unchecked
remembers its constraint for that atom and no other. -/
theorem get?_forcedBy_raise (hwild : ∀ x id, run.forcedBy.get? x = some id → run.value x = .wild)
    (s : Store) (id : ConstraintId) (x : AtomKey) (k : Kind) :
    ((run.raise s id x k).2.forcedBy = run.forcedBy ∧
      ∀ y, (run.raise s id x k).2.value y = .wild ↔ run.value y = .wild) ∨
    (run.value x ≠ .wild ∧ k = .wild ∧ s.Permits x .wild ∧
      (∀ y, (run.raise s id x k).2.forcedBy.get? y = if y = x then some id else run.forcedBy.get? y) ∧
      ∀ y, (run.raise s id x k).2.value y = .wild ↔ y = x ∨ run.value y = .wild) := by
  rcases forcedBy_raise s id run x k with ⟨hcauses, hval⟩ | ⟨hcauses, hx, hk, hp, hval⟩
  · refine .inl ⟨hcauses, fun y => ⟨hval y, fun hy => le_antisymm (Kind.le_wild _) ?_⟩⟩
    exact hy ▸ le_value_raise s id run x y k
  · have hnone : run.forcedBy.get? x = none := by
      cases hget : run.forcedBy.get? x with
      | none => rfl
      | some i => exact absurd (hwild x i hget) hx
    refine .inr ⟨hx, hk, hp, fun y => ?_, hval⟩
    rw [hcauses, SortedMap.get?_insertNew]
    simp only [hnone, and_true]

/-- Exactly the unchecked atoms have a constraint remembered. -/
def Caused (run : Run) : Prop :=
  ∀ key, (∃ id, run.forcedBy.get? key = some id) ↔ run.value key = .wild

theorem Caused.raise (h : Caused run) (s : Store) (id : ConstraintId) (x : AtomKey) (k : Kind) :
    Caused (run.raise s id x k).2 := by
  have hwild : ∀ y i, run.forcedBy.get? y = some i → run.value y = .wild := fun y i hy => (h y).1 ⟨i, hy⟩
  intro y
  rcases get?_forcedBy_raise hwild s id x k with ⟨hcauses, hval⟩ | ⟨-, -, -, hget, hval⟩
  · rw [hcauses, hval, h]
  · rw [hget, hval]
    by_cases hy : y = x
    · simp [hy]
    · simp [hy, h y]

theorem Explained.act (hdemand : ∀ f, s.InForce f → f.IsDemand) (h : Explained s run)
    (hact : Act s blocked run run') : Explained s run' := by
  cases hact with
  | visit | fire => exact ⟨h.wild, h.justified⟩
  | @raise id f x k hf hask =>
      rcases get?_forcedBy_raise h.wild s id x k with ⟨hcauses, hval⟩ | ⟨hx, rfl, hp, hget, hval⟩
      · refine ⟨fun y i hi => (hval y).2 (h.wild y i (hcauses ▸ hi)), fun y hy => ?_⟩
        rw [hcauses]
        exact h.justified y ((hval y).1 hy)
      · have hmono : ∀ y, s.Justified run.forcedBy y →
            s.Justified (run.raise s id x .wild).2.forcedBy y := by
          refine fun y hy => hy.mono fun z i hz => ?_
          rw [hget, if_neg]
          · exact hz
          · rintro rfl
            exact hx (h.wild z i hz)
        refine ⟨fun y i hi => ?_, fun y hy => ?_⟩
        · rw [hget] at hi
          by_cases hyx : y = x
          · exact (hval y).2 (.inl hyx)
          · rw [if_neg hyx] at hi
            exact (hval y).2 (.inr (h.wild y i hi))
        · rcases (hval y).1 hy with rfl | hy
          · have hself : (run.raise s id y .wild).2.forcedBy.get? y = some id := by
              rw [hget, if_pos rfl]
            cases hdemand f ⟨id, hf⟩ with
            | pin z k' =>
                cases hask with
                | pin => exact .pin hself hf hp
            | join a b =>
                generalize hk : Kind.wild = k at hask hself hmono
                cases hask with
                | left => exact .join hself hf hp (hmono b (h.justified b hk.symm))
                | right => exact .joinBack hself hf hp (hmono a (h.justified a hk.symm))
            | flow a b hk =>
                cases hask with
                | passed hlive hask =>
                    cases hask with
                    | pin => exact .flow hself hf hp (hmono a (h.justified a (isLive_pin.1 hlive).2))
          · exact hmono y (h.justified y hy)

/-- Promotions make nobody unchecked, and nobody checked. -/
theorem value_promote_eq_wild_iff (s : Store) (run : Run) (x : AtomKey) :
    (run.promote (run.promotions s)).value x = .wild ↔ run.value x = .wild := by
  rw [value_promote]
  split
  · rename_i hx
    rw [(mem_promotions hx).1]
    decide
  · rfl

theorem Caused.promote (h : Caused run) : Caused (run.promote (run.promotions s)) := by
  intro x
  rw [forcedBy_promote, value_promote_eq_wild_iff, h]

theorem Explained.promote (h : Explained s run) : Explained s (run.promote (run.promotions s)) := by
  have hval := value_promote_eq_wild_iff s run
  refine ⟨fun x id hx => ?_, fun x hx => ?_⟩
  · rw [forcedBy_promote] at hx
    exact (hval x).2 (h.wild x id hx)
  · rw [forcedBy_promote]
    exact h.justified x ((hval x).1 hx)

theorem explained_round (hs : s.Indexed) (hprimed : Primed s seeds)
    (hdemand : ∀ f, s.InForce f → f.IsDemand) (h : Explained s (Run.start s)) (blocked : List Formula) :
    Explained s (round s seeds blocked) :=
  round_keeps hs hprimed blocked h (fun _ _ hact hr => hr.act hdemand hact) fun _ hr => hr.promote

end Run

end PointerKinds
