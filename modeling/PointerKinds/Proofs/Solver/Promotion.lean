/-
What promotions add to a round.

The second phase of a round starts from kinds that are at rest, up to the flows that are
blocked.  So it moves an atom only if the atom was promoted or something that moved pushes
it, and whatever it pushes, it pushes above a plain array.  Hence an atom that ends up a
plain array was one before the promotions, and an eager atom never ends up one.

All of this is about stores of pins, joins and flows whose filters bar nothing but unchecked
pointers.  There a kind below the top is granted in full.
-/
import PointerKinds.Proofs.Solver.Components
import PointerKinds.Proofs.Solver.Least
import PointerKinds.Proofs.Solver.Provenance

namespace PointerKinds

namespace Formula

/-- A formula hands the kind of one atom on to another. -/
inductive Hands : Formula → AtomKey → AtomKey → Kind → Prop
  | join (a x : AtomKey) (k : Kind) : Hands (join a x) a x k
  | joinBack (a x : AtomKey) (k : Kind) : Hands (join x a) a x k
  | flow (a x : AtomKey) (k : Kind) : Hands (flow a x k) a x k

theorem Hands.mem_mentions {f : Formula} {a x : AtomKey} {k : Kind} (h : f.Hands a x k) :
    a ∈ f.mentions ∧ x ∈ f.mentions := by
  cases h <;> simp [mentions, Operand.key?]

end Formula

namespace Store

variable {s t : Store} {E : AtomKey → Kind} {f : Formula} {a b x : AtomKey} {k : Kind}

/-- Everything in force is a pin, a join or a flow, flows come in pairs, and nothing but an
unchecked pointer is barred. -/
structure Demanding (s : Store) : Prop where
  indexed : s.Indexed
  demand : ∀ f, s.InForce f → f.IsDemand
  paired : ∀ a b, s.InForce (.flow a b .arr) ↔ s.InForce (.flow a b .ntArr)
  permitted : ∀ x a, s.atoms.get? x = some a → ∀ k, k ≠ .wild → a.permits k = true

theorem Demanding.ruled (h : s.Demanding) : s.Ruled where
  indexed := h.indexed
  rule f hf := (h.demand f hf).isRule
  paired := h.paired

theorem Demanding.permits (h : s.Demanding) (hf : s.InForce f) (hx : x ∈ f.mentions) (hk : k ≠ .wild) :
    s.Permits x k := by
  obtain ⟨id, hf⟩ := hf
  have hreg := h.indexed.contains_of_mem hf hx
  obtain ⟨a, ha⟩ := Option.isSome_iff_exists.1 hreg
  exact ⟨a, ha, h.permitted x a ha k hk⟩

/-- A demand above plain arrays puts an atom above plain arrays. -/
theorem Demanding.ntArr_le (h : s.Demanding) (hf : s.InForce f) (hx : x ∈ f.mentions)
    (hmeets : s.Meets E x k) (hk : .ntArr ≤ k) : .ntArr ≤ E x :=
  (hmeets.of_le hk).le (h.permits hf hx (by decide))

/-- A demand up to plain arrays is met in full. -/
theorem Demanding.le_of_meets (h : s.Demanding) (hf : s.InForce f) (hx : x ∈ f.mentions)
    (hmeets : s.Meets E x k) (hk : k ≠ .wild) : k ≤ E x :=
  hmeets.le (h.permits hf hx hk)

/-- An equality or a flow leads from one atom to another. -/
def Leads (s : Store) (a x : AtomKey) : Prop := ∃ f k, s.InForce f ∧ f.Hands a x k

end Store

namespace Run

variable {s : Store} {run run' : Run} {blocked : List Formula} {seeds : List AtomKey}
  {f : Formula} {a b x : AtomKey} {k : Kind} {E : AtomKey → Kind}

/-! ### Requests -/

/-- A demand asks for a pinned kind or hands on the kind that another atom has. -/
theorem Asks.of_isDemand (hf : f.IsDemand) (hask : run.Asks f x k) :
    f = .pin x k ∨ ∃ a, run.value a = k ∧ f.Hands a x k ∧
      (f = .flow a x k → k = .wild ∨ f ∈ run.fired) := by
  cases hf with
  | pin y k' =>
      cases hask with
      | pin => exact .inl rfl
  | join a b =>
      right
      cases hask with
      | left => exact ⟨b, rfl, .joinBack b x _, fun he => nomatch he⟩
      | right => exact ⟨a, rfl, .join a x _, fun he => nomatch he⟩
  | flow a b hk =>
      right
      cases hask with
      | passed hlive hask =>
          obtain ⟨hfired, hval⟩ := isLive_pin.1 hlive
          cases hask with
          | pin => exact ⟨a, hval, .flow a _ _, fun _ => hfired⟩

/-- A run at rest meets whatever is handed on and not blocked. -/
theorem AtRest.meets_handed (h : AtRest s blocked run) (hf : s.InForce f)
    (hhands : f.Hands a x (run.value a))
    (hopen : f = .flow a x (run.value a) → run.value a = .wild ∨ f ∉ blocked) :
    s.Meets run.value x (run.value a) := by
  cases hhands with
  | join => exact (h.calm.meets_join hf).2
  | joinBack => exact (h.calm.meets_join hf).1
  | flow =>
      by_cases hwild : run.value a = .wild
      · obtain ⟨id, hid⟩ := hf
        refine h.calm (id, _) hid trivial x _ (.passed ?_ (.pin x _))
        rw [isLive_pin]
        exact ⟨.inl hwild, rfl⟩
      · exact h.meets_flow hf hwild ((hopen rfl).resolve_left hwild) rfl

/-- Plain arrays are joined to plain arrays only. -/
theorem Calm.value_joined (hs : s.Demanding) (h : Calm s run) (hjoin : s.Joined a b)
    (ha : run.value a = .arr) : run.value b = .arr := by
  obtain ⟨f, hf, hmentions, hab, hba⟩ : ∃ f, s.InForce f ∧ (a ∈ f.mentions ∧ b ∈ f.mentions) ∧
      s.Meets run.value b (run.value a) ∧ s.Meets run.value a (run.value b) := by
    rcases hjoin with hf | hf
    · exact ⟨_, hf, (Formula.Hands.join a b .arr).mem_mentions, (h.meets_join hf).2, (h.meets_join hf).1⟩
    · exact ⟨_, hf, (Formula.Hands.joinBack a b .arr).mem_mentions, (h.meets_join hf).1,
        (h.meets_join hf).2⟩
  rw [ha] at hab
  have hle : .arr ≤ run.value b := hs.le_of_meets hf hmentions.2 hab (by decide)
  by_contra hne
  have hgt : .ntArr ≤ run.value b := Kind.ntArr_le_of_arr_lt (lt_of_le_of_ne hle (Ne.symm hne))
  have hback := hs.ntArr_le hf hmentions.1 hba hgt
  rw [ha] at hback
  exact absurd hback (by decide)

theorem mem_promotions_hard (hs : s.Demanding) (h : Primed s seeds) (blocked : List Formula) :
    x ∈ (hard s seeds blocked).promotions s ↔ (hard s seeds blocked).value x = .arr ∧ s.Eager x :=
  mem_promotions_iff hs.indexed fun _ _ hjoin ha =>
    (hard_spec hs.indexed h blocked).2.calm.value_joined hs hjoin ha

/-! ### The second phase -/

/-- A run is ahead of another: it is the same but for atoms above plain arrays, which are
led to from chosen ones. -/
structure Ahead (s : Store) (chosen : List AtomKey) (run run' : Run) : Prop where
  le : ∀ x, run.value x ≤ run'.value x
  moved : ∀ x, run'.value x = run.value x ∨
    .ntArr ≤ run'.value x ∧ ∃ q ∈ chosen, Relation.ReflTransGen s.Leads q x

theorem Ahead.act {chosen : List AtomKey} {run'' : Run} (hs : s.Demanding) (hrest : AtRest s blocked run)
    (h : Ahead s chosen run run') (hcommitted : Committed s blocked run') (hact : Act s blocked run' run'') :
    Ahead s chosen run run'' := by
  refine ⟨fun y => le_trans (h.le y) (hact.le_value y), fun y => ?_⟩
  cases hact with
  | visit => exact h.moved y
  | fire => exact h.moved y
  | @raise id f x k hf hask =>
      by_cases hy : y = x
      · subst hy
        rcases raise_cases s id run' y k with ⟨e, -⟩ | ⟨c, -, -, -, e⟩ | ⟨c, g, after, hc, hg, hlt, -, e⟩
        · rw [e]
          exact h.moved y
        · rw [e]
          exact h.moved y
        · rw [e, value_count, value_assign, if_pos rfl]
          -- The atom moves, so the settled run does not meet the request.
          have hunmet : ¬ s.Meets run.value y k := fun hmeets =>
            absurd (lt_of_lt_of_le hlt (hmeets c hc g hg)) (not_lt.2 (h.le y))
          have hforce : s.InForce f := ⟨id, hf⟩
          rcases hask.of_isDemand (hs.demand f hforce) with rfl | ⟨a, ha, hhands, hopen⟩
          · exact absurd (hrest.calm _ hf trivial y k (.pin y k)) hunmet
          · have hleads : s.Leads a y := ⟨f, k, hforce, hhands⟩
            rcases h.moved a with hsame | ⟨hntArr, q, hq, hpath⟩
            · have hval : run.value a = k := hsame.symm.trans ha
              subst hval
              refine absurd (hrest.meets_handed hforce hhands fun hflow => ?_) hunmet
              exact (hopen hflow).imp_right fun hfired => hcommitted.allowed f hfired
            · rw [ha] at hntArr
              refine .inr ⟨?_, q, hq, hpath.tail hleads⟩
              have hp := hs.permitted y c hc .ntArr (by decide)
              exact (Atom.floor?_eq_some_iff.1 hg).2.2 .ntArr hp hntArr
      · rw [value_raise_of_ne s id run' k hy]
        exact h.moved y

/-- The second phase of a round is ahead of the first. -/
theorem ahead_round (hs : s.Demanding) (h : Primed s seeds) (blocked : List Formula) :
    Ahead s ((hard s seeds blocked).promotions s) (hard s seeds blocked) (round s seeds blocked) := by
  have hrest := (hard_spec hs.indexed h blocked).2
  have hsoftened : Ahead s ((hard s seeds blocked).promotions s) (hard s seeds blocked)
      (softened s seeds blocked) := by
    refine ⟨le_value_promotions _, fun x => ?_⟩
    unfold softened
    rw [value_promote]
    split
    · rename_i hx
      exact .inr ⟨le_refl _, x, hx, .refl⟩
    · exact .inl rfl
  refine ((round_spec hs.indexed h blocked).1.keeps
    (P := fun r => Committed s blocked r ∧ Ahead s _ (hard s seeds blocked) r) (fun r r' hact hr => ?_)
    ⟨committed_softened hs.indexed h blocked, hsoftened⟩).2
  exact ⟨hr.1.act hact, hr.2.act hs hrest hr.1 hact⟩

/-- What ends up a plain array was one before the promotions. -/
theorem hard_eq_of_round_arr (hs : s.Demanding) (h : Primed s seeds)
    (hx : (round s seeds blocked).value x = .arr) : (hard s seeds blocked).value x = .arr := by
  rcases (ahead_round hs h blocked).moved x with hsame | ⟨hle, -⟩
  · rw [← hsame, hx]
  · rw [hx] at hle
    exact absurd hle (by decide)

/-- What is promoted ends up above plain arrays. -/
theorem ntArr_le_round (hs : s.Demanding) (h : Primed s seeds)
    (hx : x ∈ (hard s seeds blocked).promotions s) : .ntArr ≤ (round s seeds blocked).value x := by
  refine le_trans ?_ ((round_spec hs.indexed h blocked).1.le_value x)
  unfold softened
  rw [value_promote, if_pos hx]

/-- An eager atom never ends up a plain array. -/
theorem ntArr_le_round_of_eager (hs : s.Demanding) (h : Primed s seeds) (heager : s.Eager x)
    (hx : .arr ≤ (round s seeds blocked).value x) : .ntArr ≤ (round s seeds blocked).value x := by
  by_contra hlt
  have harr : (round s seeds blocked).value x = .arr :=
    le_antisymm (Kind.le_arr_of_lt_ntArr (not_le.1 hlt)) hx
  exact hlt (ntArr_le_round hs h
    ((mem_promotions_hard hs h blocked).2 ⟨hard_eq_of_round_arr hs h harr, heager⟩))

/-! ### Bounds on a round with nothing stale -/

/-- A fired flow that is not stale has a source of its kind. -/
theorem value_of_mem_fired (hstale : run.stale = []) (hf : .flow a b k ∈ run.fired) : run.value a = k := by
  by_contra hne
  have hbad : .flow a b k ∈ run.stale := by
    rw [mem_stale]
    exact ⟨hf, _, _, rfl, fun htruth => hne (Formula.truth_atomKind_eq_yes.1 htruth)⟩
  rw [hstale] at hbad
  exact List.not_mem_nil hbad

theorem fired_hard_subset (hs : s.Indexed) (h : Primed s seeds) :
    (hard s seeds blocked).fired ⊆ (round s seeds blocked).fired := by
  rw [← fired_promote (hard s seeds blocked) ((hard s seeds blocked).promotions s)]
  exact (round_spec hs h blocked).1.fired_subset

/-- A bound need only yield to what the round hands on, and of flows, only to those out of
atoms that keep the kind they hand on. -/
theorem round_le_of (hs : s.Demanding) (h : Primed s seeds) (hstale : (round s seeds blocked).stale = [])
    (hstart : ∀ x, s.value x ≤ E x) (hpin : ∀ x k, s.InForce (.pin x k) → s.Meets E x k)
    (hhands : ∀ f a x k, s.InForce f → f.Hands a x k → k ≤ E a →
      (f = .flow a x k → (round s seeds blocked).value a = k) → s.Meets E x k)
    (hpromote : ∀ x ∈ (hard s seeds blocked).promotions s, .arr ≤ E x → .ntArr ≤ E x) :
    ∀ x, (round s seeds blocked).value x ≤ E x := by
  have hact : ∀ r r', Act s blocked r r' → r'.fired ⊆ (round s seeds blocked).fired →
      (∀ x, r'.value x ≤ (round s seeds blocked).value x) → (∀ x, r.value x ≤ E x) →
      ∀ x, r'.value x ≤ E x := by
    intro r r' hact hfired hvalue hle
    cases hact with
    | visit => exact hle
    | fire => exact hle
    | @raise id f x k hf hask =>
        refine value_raise_le s id r x k hle ?_
        have hforce : s.InForce f := ⟨id, hf⟩
        rcases hask.of_isDemand (hs.demand f hforce) with rfl | ⟨a, ha, hhand, hopen⟩
        · exact hpin x k hforce
        · refine hhands f a x k hforce hhand (ha ▸ hle a) fun hflow => ?_
          rcases hopen hflow with rfl | hmem
          · refine le_antisymm (Kind.le_wild _) ?_
            rw [← ha]
            exact le_trans (le_value_raise s id r x a _) (hvalue a)
          · rw [← fired_raise s id r x k, hflow] at hmem
            exact value_of_mem_fired hstale (hfired hmem)
  obtain ⟨hfirst, -⟩ := hard_spec hs.indexed h blocked
  obtain ⟨hsecond, -⟩ := round_spec hs.indexed h blocked
  have hhard : ∀ x, (hard s seeds blocked).value x ≤ E x := by
    refine hfirst.keeps_toward (P := fun r => ∀ x, r.value x ≤ E x) (fun r r' hr hrest => ?_) hstart
    exact hact r r' hr (fun f hf => fired_hard_subset hs.indexed h (hrest.fired_subset hf))
      fun x => le_trans (hrest.le_value x) (hard_le_round hs.indexed h blocked x)
  refine hsecond.keeps_toward (P := fun r => ∀ x, r.value x ≤ E x)
    (fun r r' hr hrest => hact r r' hr hrest.fired_subset hrest.le_value) fun x => ?_
  unfold softened
  rw [value_promote]
  split
  · rename_i hx
    refine hpromote x hx ?_
    rw [← (mem_promotions hx).1]
    exact hhard x
  · exact hhard x

theorem accepted_stale (hs : s.Indexed) (h : Primed s seeds) : (accepted s seeds).stale = [] := by
  obtain ⟨hrun, hstale, -⟩ := Store.solution_spec hs h
  unfold accepted
  rw [← hrun]
  exact hstale

/-- Every flow of plain arrays is met in the end. -/
def FlowsMet (s : Store) (run : Run) : Prop :=
  ∀ a b, s.InForce (.flow a b .arr) → run.value a = .arr → .arr ≤ run.value b

theorem closed_of_flowsMet (hs : s.Ruled) (h : Primed s seeds) (hmet : FlowsMet s (accepted s seeds)) :
    s.Closed (accepted s seeds).value :=
  closed_accepted hs h fun a b hf ha _ => Store.meets_of_le (hmet a b hf ha)

end Run

end PointerKinds
