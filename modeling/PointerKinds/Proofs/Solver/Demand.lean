/-
What one step of a run can do.

A formula in force asks at most one atom to rise, and `Asks` says which atom, and to
which kind.  Everything a run does to its environment while it drains the queue is to
grant such a request, so `Act` has one constructor for that, one for committing to an
implication, and one for taking an atom off the queue.  Whatever is kept by these three
is kept by a whole round, apart from the preferences, and later files prove their
invariants one constructor at a time and never look at the queue.

A run commits itself to an implication only when the queue is empty, and then everything
else is settled; so the constructor says so, and `Queue` proves it.  An implication whose
conclusion is itself an implication is left out of that: firing one implication can bring
another to life that stands inside a third.
-/
import Mathlib.Logic.Relation
import PointerKinds.Proofs.Chain
import PointerKinds.Proofs.Tables
import PointerKinds.Solver.Round

namespace PointerKinds

namespace Store

/-- A constraint in force says so. -/
def InForce (s : Store) (f : Formula) : Prop := ∃ id, (id, f) ∈ s.activeFormulas

end Store

namespace Formula

/-- No implication stands inside another's conclusion. -/
def IsFlat : Formula → Prop
  | implies _ (implies _ _) => False
  | _ => True

/-! ### A formula sees only the atoms it mentions -/

theorem equalityTruth_congr {E F : AtomKey → Kind} {l r : Operand}
    (h : ∀ key ∈ (eq l r).mentions, E key = F key) : equalityTruth E l r = equalityTruth F l r := by
  cases l <;> cases r <;> simp_all [equalityTruth, mentions, Operand.key?]

theorem equalityHolds_congr {E F : AtomKey → Kind} {l r : Operand}
    (h : ∀ key ∈ (eq l r).mentions, E key = F key) : equalityHolds E l r = equalityHolds F l r := by
  cases l <;> cases r <;> simp_all [equalityHolds, mentions, Operand.key?]

theorem truth_holds_congr {E F : AtomKey → Kind} {f : Formula}
    (h : ∀ key ∈ f.mentions, E key = F key) : f.truth E = f.truth F ∧ f.holds E = f.holds F := by
  induction f with
  | eq l r => exact ⟨by simp only [truth, equalityTruth_congr h], by simp only [holds, equalityHolds_congr h]⟩
  | not body ih =>
      obtain ⟨ht, -⟩ := ih h
      exact ⟨by simp only [truth, ht], by simp only [holds, ht]⟩
  | implies p c ihp ihc =>
      obtain ⟨htp, -⟩ := ihp fun key hk => h key (List.mem_append.2 (.inl hk))
      obtain ⟨-, hhc⟩ := ihc fun key hk => h key (List.mem_append.2 (.inr hk))
      exact ⟨by simp only [truth, htp, hhc], by simp only [holds, htp, hhc]⟩

theorem truth_congr {E F : AtomKey → Kind} {f : Formula}
    (h : ∀ key ∈ f.mentions, E key = F key) : f.truth E = f.truth F := (truth_holds_congr h).1

theorem truth_atomKind_eq_yes {E : AtomKey → Kind} {key : AtomKey} {k : Kind} :
    (eq (.atom key) (.kind k)).truth E = .yes ↔ E key = k := by
  simp only [truth, equalityTruth]
  by_cases h : E key = k
  · simp [h]
  · rw [if_neg h]
    by_cases hlt : k < E key <;> simp [h, hlt]

end Formula

namespace Run

variable {s : Store} {run : Run} {cause : ConstraintId} {key : AtomKey} {k : Kind}

/-! ### Assignments -/

theorem value_assign (run : Run) (key key' : AtomKey) (k : Kind) (cause : Option ConstraintId) :
    (run.assign key k cause).value key' = if key' = key then k else run.value key' := by
  unfold value assign SortedMap.getD
  simp only [SortedMap.get?_insert]
  by_cases h : key' = key <;> simp [h]

@[simp] theorem value_count (run : Run) (n : Nat) : (run.count n).value = run.value := rfl

@[simp] theorem forcedBy_count (run : Run) (n : Nat) : (run.count n).forcedBy = run.forcedBy := rfl

/-! ### Requests -/

/-- A formula asks an atom to rise to a kind. -/
inductive Asks (run : Run) : Formula → AtomKey → Kind → Prop
  | pin (key : AtomKey) (k : Kind) : Asks run (.eq (.atom key) (.kind k)) key k
  | pinned (key : AtomKey) (k : Kind) : Asks run (.eq (.kind k) (.atom key)) key k
  | left {a b : AtomKey} (h : run.value a < run.value b) :
      Asks run (.eq (.atom a) (.atom b)) a (run.value b)
  | right {a b : AtomKey} (h : ¬ run.value a < run.value b) :
      Asks run (.eq (.atom a) (.atom b)) b (run.value a)
  | passed {p c : Formula} {key : AtomKey} {k : Kind}
      (hlive : run.isLive (.implies p c) p = true) (h : Asks run c key k) :
      Asks run (.implies p c) key k

theorem Asks.mem_mentions {f : Formula} (h : run.Asks f key k) : key ∈ f.mentions := by
  induction h with
  | pin | pinned | left | right => simp [Formula.mentions, Operand.key?]
  | passed _ _ ih => exact List.mem_append.2 (.inr ih)

/-- A formula makes at most one request at a time. -/
theorem Asks.unique {f : Formula} {key' : AtomKey} {k' : Kind} (h : run.Asks f key k)
    (h' : run.Asks f key' k') : key = key' ∧ k = k' := by
  induction h with
  | pin | pinned =>
      cases h'
      exact ⟨rfl, rfl⟩
  | left hlt =>
      cases h' with
      | left => exact ⟨rfl, rfl⟩
      | right hnlt => exact absurd hlt hnlt
  | right hnlt =>
      cases h' with
      | left hlt => exact absurd hlt hnlt
      | right => exact ⟨rfl, rfl⟩
  | passed _ _ ih =>
      cases h' with
      | passed _ h' => exact ih h'

/-- Whatever a formula asks for is met. -/
def Settled (s : Store) (run : Run) (f : Formula) : Prop :=
  ∀ key k, run.Asks f key k → s.Meets run.value key k

/-- Every flat formula in force is settled. -/
def Calm (s : Store) (run : Run) : Prop := ∀ c ∈ s.activeFormulas, c.2.IsFlat → Settled s run c.2

/-- Applying a formula grants what it asks for, or does nothing if it asks for nothing. -/
theorem apply_cases (s : Store) (cause : ConstraintId) (run : Run) (f : Formula) :
    (run.apply s cause f = (none, run) ∧ ∀ key k, ¬ run.Asks f key k) ∨
      ∃ key k, run.Asks f key k ∧ run.apply s cause f = run.raise s cause key k := by
  induction f with
  | eq l r =>
      cases l with
      | atom a =>
          cases r with
          | atom b =>
              by_cases h : run.value a < run.value b
              · exact .inr ⟨a, _, .left h, by simp only [apply, if_pos h]⟩
              · exact .inr ⟨b, _, .right h, by simp only [apply, if_neg h]⟩
          | kind k => exact .inr ⟨a, k, .pin a k, rfl⟩
      | kind k =>
          cases r with
          | atom b => exact .inr ⟨b, k, .pinned b k, rfl⟩
          | kind k' =>
              refine .inl ⟨rfl, fun key k h => ?_⟩
              cases h
  | not body =>
      refine .inl ⟨rfl, fun key k h => ?_⟩
      cases h
  | implies p c _ ihc =>
      by_cases hlive : run.isLive (.implies p c) p = true
      · have happly : run.apply s cause (.implies p c) = run.apply s cause c := by
          rw [apply, if_pos hlive]
        rw [happly]
        rcases ihc with ⟨hc, hno⟩ | ⟨key, k, hk, hc⟩
        · refine .inl ⟨hc, fun key k h => ?_⟩
          cases h with
          | passed _ h => exact hno key k h
        · exact .inr ⟨key, k, .passed hlive hk, hc⟩
      · refine .inl ⟨by rw [apply, if_neg hlive], fun key k h => ?_⟩
        cases h with
        | passed h' _ => exact hlive h'

/-! ### Granting a request -/

/-- What a raise can do: nothing, a refusal, or a move to the floor of the request, with
a refusal if the floor is short of it. -/
theorem raise_cases (s : Store) (cause : ConstraintId) (run : Run) (key : AtomKey) (k : Kind) :
    (run.raise s cause key k = (none, run) ∧ (k ≤ run.value key ∨ s.atoms.get? key = none)) ∨
    (∃ a, s.atoms.get? key = some a ∧ a.permits k = false ∧
      (∀ g, a.floor? k = some g → g ≤ run.value key) ∧
      run.raise s cause key k = (none, run.refuse ⟨cause, some key⟩ ⟨k, none⟩)) ∨
    (∃ a g run', s.atoms.get? key = some a ∧ a.floor? k = some g ∧ run.value key < g ∧
      ((g = k ∧ run' = run) ∨
        (a.permits k = false ∧ run' = run.refuse ⟨cause, some key⟩ ⟨k, some g⟩)) ∧
      run.raise s cause key k = (some key, (run'.assign key g (some cause)).count 1)) := by
  by_cases hle : k ≤ run.value key
  · exact .inl ⟨by rw [raise, if_pos hle], .inl hle⟩
  cases ha : s.atoms.get? key with
  | none => exact .inl ⟨by simp only [raise, if_neg hle, ha], .inr rfl⟩
  | some a =>
      have hlt : run.value key < k := not_le.1 hle
      have hgrant := Atom.grant_eq (a := a) hlt
      have hpermits : ∀ g, a.floor? k = some g → g ≠ k → a.permits k = false := by
        intro g hg hne
        cases hp : a.permits k with
        | false => rfl
        | true => exact absurd (Option.some.inj ((Atom.floor?_of_permits hp).symm.trans hg)).symm hne
      cases hg : (a.floor? k).filter (fun g => run.value key < g) with
      | none =>
          have hfloor : ∀ g, a.floor? k = some g → g ≤ run.value key := by
            intro g hf
            rw [hf] at hg
            simpa [Option.filter] using hg
          have hnot : a.permits k = false := by
            cases hp : a.permits k with
            | false => rfl
            | true => exact absurd (hfloor k (Atom.floor?_of_permits hp)) hle
          refine .inr (.inl ⟨a, rfl, hnot, hfloor, ?_⟩)
          simp only [raise, if_neg hle, ha, hgrant, hg]
          simp
      | some g =>
          obtain ⟨hf, hcur⟩ := Option.filter_eq_some_iff.1 hg
          have hcur : run.value key < g := by simpa using hcur
          by_cases hgk : g = k
          · refine .inr (.inr ⟨a, g, run, rfl, hf, hcur, .inl ⟨hgk, rfl⟩, ?_⟩)
            simp only [raise, if_neg hle, ha, hgrant, hg, hgk, if_true]
          · refine .inr (.inr ⟨a, g, _, rfl, hf, hcur, .inr ⟨hpermits g hf hgk, rfl⟩, ?_⟩)
            simp only [raise, if_neg hle, ha, hgrant, hg]
            simp [hgk]

/-- Only the atom asked for moves, and it only moves up. -/
theorem value_raise_of_ne (s : Store) (cause : ConstraintId) (run : Run) {key key' : AtomKey} (k : Kind)
    (h : key' ≠ key) : (run.raise s cause key k).2.value key' = run.value key' := by
  rcases raise_cases s cause run key k with ⟨e, -⟩ | ⟨a, -, -, -, e⟩ | ⟨a, g, run', -, -, -, hr, e⟩
  · rw [e]
  · rw [e]; rfl
  · rw [e, value_count, value_assign, if_neg h]
    rcases hr with ⟨-, rfl⟩ | ⟨-, rfl⟩ <;> rfl

theorem le_value_raise (s : Store) (cause : ConstraintId) (run : Run) (key key' : AtomKey) (k : Kind) :
    run.value key' ≤ (run.raise s cause key k).2.value key' := by
  by_cases h : key' = key
  · subst h
    rcases raise_cases s cause run key' k with ⟨e, -⟩ | ⟨a, -, -, -, e⟩ | ⟨a, g, run', -, -, hlt, -, e⟩
    · rw [e]
    · rw [e]; exact le_refl _
    · rw [e, value_count, value_assign, if_pos rfl]
      exact le_of_lt hlt
  · exact le_of_eq (value_raise_of_ne s cause run k h).symm

/-- A granted request is met. -/
theorem meets_raise (s : Store) (cause : ConstraintId) (run : Run) (key : AtomKey) (k : Kind) :
    s.Meets (run.raise s cause key k).2.value key k := by
  rcases raise_cases s cause run key k with
    ⟨e, hle | hnone⟩ | ⟨a, ha, -, hfloor, e⟩ | ⟨a, g, run', ha, hg, -, -, e⟩
  · exact Store.meets_of_le (by rw [e]; exact hle)
  · intro a ha
    rw [hnone] at ha
    exact absurd ha (by simp)
  · intro a' ha' g' hg'
    rw [ha] at ha'
    obtain rfl := Option.some.inj ha'
    rw [e]
    exact hfloor g' hg'
  · intro a' ha' g' hg'
    rw [ha] at ha'
    obtain rfl := Option.some.inj ha'
    rw [hg] at hg'
    obtain rfl := Option.some.inj hg'
    rw [e, value_count, value_assign, if_pos rfl]

/-- No request takes an atom above a bound that meets it. -/
theorem value_raise_le {E : AtomKey → Kind} (s : Store) (cause : ConstraintId) (run : Run)
    (key : AtomKey) (k : Kind) (hrun : ∀ x, run.value x ≤ E x) (hmeets : s.Meets E key k) :
    ∀ x, (run.raise s cause key k).2.value x ≤ E x := by
  intro x
  by_cases h : x = key
  · subst h
    rcases raise_cases s cause run x k with ⟨e, -⟩ | ⟨a, -, -, -, e⟩ | ⟨a, g, run', ha, hg, -, -, e⟩
    · rw [e]; exact hrun x
    · rw [e]; exact hrun x
    · rw [e, value_count, value_assign, if_pos rfl]
      exact hmeets a ha g hg
  · rw [value_raise_of_ne s cause run k h]
    exact hrun x

@[simp] theorem fired_raise (s : Store) (cause : ConstraintId) (run : Run) (key : AtomKey) (k : Kind) :
    (run.raise s cause key k).2.fired = run.fired := by
  rcases raise_cases s cause run key k with ⟨e, -⟩ | ⟨a, -, -, -, e⟩ | ⟨a, g, run', -, -, -, hr, e⟩
  · rw [e]
  · rw [e]; rfl
  · rw [e]
    rcases hr with ⟨-, rfl⟩ | ⟨-, rfl⟩ <;> rfl

@[simp] theorem fired_apply (s : Store) (cause : ConstraintId) (run : Run) (f : Formula) :
    (run.apply s cause f).2.fired = run.fired := by
  rcases apply_cases s cause run f with ⟨e, -⟩ | ⟨key, k, -, e⟩
  · rw [e]
  · rw [e, fired_raise]

/-- A raise adds at most one refusal, at the constraint and the atom it is about. -/
theorem refusals_raise (s : Store) (cause : ConstraintId) (run : Run) (key : AtomKey) (k : Kind) :
    (run.raise s cause key k).2.refusals = run.refusals ∨
      ∃ r, (run.raise s cause key k).2.refusals = run.refusals.insertNew ⟨cause, some key⟩ r := by
  rcases raise_cases s cause run key k with ⟨e, -⟩ | ⟨a, -, -, -, e⟩ | ⟨a, g, run', -, -, -, hr, e⟩
  · exact .inl (by rw [e])
  · exact .inr ⟨_, by rw [e]; rfl⟩
  · rcases hr with ⟨-, rfl⟩ | ⟨-, rfl⟩
    · exact .inl (by rw [e]; rfl)
    · exact .inr ⟨_, by rw [e]; rfl⟩

/-- Refusals stay on record. -/
theorem contains_refusals_apply (s : Store) (cause : ConstraintId) (run : Run) (f : Formula) (site : Site)
    (h : run.refusals.contains site = true) : (run.apply s cause f).2.refusals.contains site = true := by
  rcases apply_cases s cause run f with ⟨e, -⟩ | ⟨key, k, -, e⟩
  · rwa [e]
  · rw [e]
    rcases refusals_raise s cause run key k with he | ⟨r, he⟩
    · rwa [he]
    · rw [he, SortedMap.contains_insertNew]
      exact .inr h

/-! ### Acts -/

/-- The run commits itself to a formula. -/
def commitTo (run : Run) (f : Formula) : Run := { run with fired := run.fired ++ [f] }

@[simp] theorem value_commitTo (run : Run) (f : Formula) : (run.commitTo f).value = run.value := rfl

theorem mem_fired_commitTo {f g : Formula} : g ∈ (run.commitTo f).fired ↔ g ∈ run.fired ∨ g = f := by
  simp [commitTo]

/-- One thing a run does while it drains the queue and fires what waits. -/
inductive Act (s : Store) (blocked : List Formula) : Run → Run → Prop
  | visit (run : Run) : Act s blocked run { run with iterations := run.iterations + 1 }
  | raise {run : Run} {id : ConstraintId} {f : Formula} {key : AtomKey} {k : Kind}
      (hf : (id, f) ∈ s.activeFormulas) (hask : run.Asks f key k) :
      Act s blocked run (run.raise s id key k).2
  | fire {run : Run} {id : ConstraintId} {f : Formula}
      (hf : (id, f) ∈ s.activeFormulas) (hwait : run.isWaiting blocked f = true) (hcalm : Calm s run) :
      Act s blocked run (run.commitTo f)

/-- Any number of acts. -/
abbrev Acts (s : Store) (blocked : List Formula) : Run → Run → Prop :=
  Relation.ReflTransGen (Act s blocked)

variable {blocked : List Formula} {run' : Run}

/-- What every act keeps, any number of acts keeps. -/
theorem Acts.keeps {P : Run → Prop} (hact : ∀ r r', Act s blocked r r' → P r → P r')
    (h : Acts s blocked run run') (hrun : P run) : P run' := by
  induction h with
  | refl => exact hrun
  | tail _ hlast ih => exact hact _ _ hlast ih

/-- The same, of the acts that lead to a run. -/
theorem Acts.keeps_toward {P : Run → Prop}
    (hact : ∀ r r', Act s blocked r r' → Acts s blocked r' run' → P r → P r')
    (h : Acts s blocked run run') (hrun : P run) : P run' := by
  induction h using Relation.ReflTransGen.head_induction_on with
  | refl => exact hrun
  | head hfirst hrest ih => exact ih (hact _ _ hfirst hrest hrun)

theorem Act.le_value (h : Act s blocked run run') (key : AtomKey) : run.value key ≤ run'.value key := by
  cases h with
  | visit => exact le_refl _
  | raise => exact le_value_raise ..
  | fire => exact le_refl _

/-- Atoms only rise. -/
theorem Acts.le_value (h : Acts s blocked run run') (key : AtomKey) : run.value key ≤ run'.value key :=
  h.keeps (P := fun r => run.value key ≤ r.value key)
    (fun _ _ hact hle => le_trans hle (hact.le_value key)) (le_refl _)

/-- A run never goes back on an implication it fired. -/
theorem Acts.fired_subset (h : Acts s blocked run run') : run.fired ⊆ run'.fired := by
  refine h.keeps (P := fun r => run.fired ⊆ r.fired) (fun r r' hact hsub => ?_) (fun _ hf => hf)
  cases hact with
  | visit => exact hsub
  | raise => rwa [fired_raise]
  | fire => exact fun f hf => mem_fired_commitTo.2 (.inl (hsub hf))

end Run

end PointerKinds
