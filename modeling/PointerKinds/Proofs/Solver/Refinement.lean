/-
Preferences refine a solution as far as they are upheld.

A promotion can undermine itself: it raises an atom above the plain array that a flow,
fired before, rested on; the flow is then blocked in every later round, and what it fed is
lost, the promoted atoms perhaps among them.  `Upheld` says when that does not happen:
every atom that would be promoted stands behind one that is promoted whatever is blocked,
because it is a plain array by flows whose sources no promotion reaches.

That this is exactly the condition rests on two bounds.  No round goes above the solution
without preferences, lifted where a promotion could reach; so flows whose sources it does
not lift are never blocked.  And a flow that the accepted round fired is not stale, so its
source was not lifted.
-/
import Mathlib.Order.MinMax
import PointerKinds.Proofs.Solver.Promotion
import PointerKinds.Proofs.Solver.Verdict
import PointerKinds.Proofs.Store.Recorded

namespace PointerKinds

namespace Store

variable {s : Store} {E L : AtomKey → Kind} {f : Formula} {a b p q x : AtomKey} {k : Kind}

/-- The store with all preferences dropped. -/
def indifferently (s : Store) : Store :=
  { s with atoms := s.atoms.mapValues fun _ a => { a with soft := {} } }

/-- Everything in force is a pin, a join or one of three flows, no filter bars anything, and
every atom starts as a checked pointer. -/
structure Open (s : Store) : Prop where
  demand : ∀ f, s.InForce f → f.IsDemand
  triple : ∀ a b k, k ≠ .ptr → s.InForce (.flow a b k) →
    s.InForce (.flow a b .arr) ∧ s.InForce (.flow a b .ntArr) ∧ s.InForce (.flow a b .wild)
  unfiltered : ∀ x a, s.atoms.get? x = some a → a.forbidden = ∅
  checked : ∀ x, s.value x = .ptr

/-- A promotion could reach the atom: an eager plain array leads to it. -/
def Lifted (s : Store) (L : AtomKey → Kind) (x : AtomKey) : Prop :=
  ∃ p, s.Eager p ∧ L p = .arr ∧ Relation.ReflTransGen s.Leads p x

/-- An atom is a plain array at least, by flows whose sources no promotion reaches. -/
inductive Grounded (s : Store) (L : AtomKey → Kind) : AtomKey → Prop
  | pin {x : AtomKey} (hf : s.InForce (.pin x .arr)) : Grounded s L x
  | join {a x : AtomKey} (hjoin : s.Joined a x) (ha : Grounded s L a) : Grounded s L x
  | flow {a x : AtomKey} (hf : s.InForce (.flow a x .arr)) (hstill : ¬ s.Lifted L a)
      (ha : Grounded s L a) : Grounded s L x

/-- Every eager plain array stands behind an eager one that is grounded. -/
def Upheld (s : Store) (L : AtomKey → Kind) : Prop :=
  ∀ p, s.Eager p → L p = .arr →
    ∃ q, s.Eager q ∧ s.Grounded L q ∧ Relation.ReflTransGen s.Leads q p

/-! ### Open stores -/

theorem Open.permits (h : s.Open) {c : Atom} (hc : s.atoms.get? x = some c) (k : Kind) :
    c.permits k = true := by
  unfold Atom.permits
  rw [h.unfiltered x c hc]
  rfl

theorem Open.demanding (h : s.Open) (hs : s.Indexed) : s.Demanding where
  indexed := hs
  demand := h.demand
  paired a b := by
    constructor
    · intro hf
      exact (h.triple a b .arr (by decide) hf).2.1
    · intro hf
      exact (h.triple a b .ntArr (by decide) hf).1
  permitted _ _ hc k _ := h.permits hc k

/-- Every demand on an open store is met in full. -/
theorem Open.le_of_meets (h : s.Open) (hs : s.Indexed) (hf : s.InForce f) (hx : x ∈ f.mentions)
    (hmeets : s.Meets E x k) : k ≤ E x := by
  obtain ⟨c, hc, -⟩ := (h.demanding hs).permits hf hx (k := .ptr) (by decide)
  exact hmeets.le ⟨c, hc, h.permits hc k⟩

/-- A solution goes up along everything that leads. -/
theorem Closed.le_of_leads (hE : s.Closed E) (h : s.Open) (hs : s.Indexed) (hleads : s.Leads a x) :
    E a ≤ E x := by
  obtain ⟨f, k, hf, hhands⟩ := hleads
  obtain ⟨-, hx⟩ := hhands.mem_mentions
  cases hhands with
  | join => exact h.le_of_meets hs hf hx (hE.link a x (.join hf))
  | joinBack => exact h.le_of_meets hs hf hx (hE.link a x (.joinBack hf))
  | flow =>
      have hk : k ≠ .ptr := by
        cases h.demand _ hf with
        | flow _ _ hk => exact hk
      obtain ⟨harr, -, hwild⟩ := h.triple a x k hk hf
      by_cases ha : s.Unchecked a
      · exact le_trans (Kind.le_wild _) (h.le_of_meets hs hf hx (hE.pin x .wild (.guarded hwild ha)))
      · exact h.le_of_meets hs hf hx (hE.link a x (.flow harr ha))

theorem Closed.le_of_path (hE : s.Closed E) (h : s.Open) (hs : s.Indexed)
    (hpath : Relation.ReflTransGen s.Leads a x) : E a ≤ E x := by
  induction hpath with
  | refl => exact le_refl _
  | tail _ hlast ih => exact le_trans ih (hE.le_of_leads h hs hlast)

theorem leads_of_link (hdemand : ∀ f, s.InForce f → f.IsDemand) (h : s.Link a b) : s.Leads a b := by
  cases h with
  | join hf => exact ⟨_, .ptr, hf, .join a b _⟩
  | joinBack hf => exact ⟨_, .ptr, hf, .joinBack a b _⟩
  | guarded hf _ => exact nomatch hdemand _ hf
  | guardedBack hf _ => exact nomatch hdemand _ hf
  | flow hf _ => exact ⟨_, .arr, hf, .flow a b _⟩

theorem leads_of_joined (h : s.Joined a b) : s.Leads a b := by
  rcases h with hf | hf
  · exact ⟨_, .ptr, hf, .join a b _⟩
  · exact ⟨_, .ptr, hf, .joinBack a b _⟩

open Classical in
/-- The solution without preferences, lifted where a promotion could reach. -/
noncomputable def cap (s : Store) (L : AtomKey → Kind) (x : AtomKey) : Kind :=
  if s.Lifted L x then max (L x) .ntArr else L x

theorem le_cap (s : Store) (L : AtomKey → Kind) (x : AtomKey) : L x ≤ s.cap L x := by
  unfold cap
  split
  · exact le_max_left _ _
  · exact le_refl _

theorem closed_cap (hL : s.Closed L) (h : s.Open) (hs : s.Indexed) : s.Closed (s.cap L) where
  pin x k hpin := (hL.pin x k hpin).mono (le_cap s L x)
  link a b hlink := by
    have hleads := leads_of_link h.demand hlink
    have hle := hL.le_of_leads h hs hleads
    refine meets_of_le ?_
    by_cases ha : s.Lifted L a
    · have hb : s.Lifted L b := by
        obtain ⟨p, hp, harr, hpath⟩ := ha
        exact ⟨p, hp, harr, hpath.tail hleads⟩
      unfold cap
      rw [if_pos ha, if_pos hb]
      exact max_le (le_trans hle (le_max_left _ _)) (le_max_right _ _)
    · have hcap : s.cap L a = L a := if_neg ha
      rw [hcap]
      exact le_trans hle (le_cap s L b)

end Store

namespace Run

variable {s : Store} {seeds : List AtomKey} {L : AtomKey → Kind} {f : Formula} {a b p q x : AtomKey}
  {k : Kind} {blocked : List Formula}

/-! ### What is never refused, and what is never blocked -/

/-- Where no filter bars anything, nothing is refused. -/
theorem refusals_round (ho : s.Open) (hs : s.Indexed) (h : Primed s seeds) (blocked : List Formula) :
    (round s seeds blocked).refusals = ∅ := by
  refine round_keeps (P := fun r => r.refusals = ∅) hs h blocked rfl (fun r r' hact hr => ?_)
    fun r hr => (refusals_promote r _).trans hr
  cases hact with
  | visit => exact hr
  | fire => exact hr
  | @raise id f x k hf hask =>
      rcases raise_cases s id r x k with ⟨e, -⟩ | ⟨c, hc, hp, -⟩ | ⟨c, g, r', hc, -, -, hr', e⟩
      · rw [e]
        exact hr
      · rw [ho.permits hc] at hp
        exact absurd hp (by decide)
      · rw [e]
        rcases hr' with ⟨-, rfl⟩ | ⟨hp, -⟩
        · exact hr
        · rw [ho.permits hc] at hp
          exact absurd hp (by decide)

/-- No round goes above the solution without preferences, lifted where a promotion could reach. -/
theorem round_le_cap (ho : s.Open) (hs : s.Indexed) (h : Primed s seeds) (hL : s.Closed L)
    (blocked : List Formula) (x : AtomKey) : (round s seeds blocked).value x ≤ s.cap L x := by
  have hd := ho.demanding hs
  have hstart : ∀ x, s.value x ≤ L x := fun x => by
    rw [ho.checked x]
    exact Kind.ptr_le _
  refine round_le_closed hd.ruled h (Store.closed_cap hL ho hs)
    (fun x => le_trans (hstart x) (Store.le_cap s L x)) blocked (fun y hy => ?_) x
  obtain ⟨harr, heager⟩ := (mem_promotions_hard hd h blocked).1 hy
  have hle := hard_le_closed hd.ruled h hL hstart blocked y
  rw [harr] at hle
  by_cases hy : L y = .arr
  · unfold Store.cap
    rw [if_pos ⟨y, heager, hy, .refl⟩]
    exact le_max_right _ _
  · exact le_trans (Kind.ntArr_le_of_arr_lt (lt_of_le_of_ne hle (Ne.symm hy))) (Store.le_cap s L y)

/-- Only flows out of atoms that reach above plain arrays are blocked. -/
theorem ntArr_le_cap_of_blocked (ho : s.Open) (hs : s.Indexed) (h : Primed s seeds) (hL : s.Closed L)
    (hf : .flow a b .arr ∈ (s.solution seeds).blocked) : .ntArr ≤ s.cap L a := by
  obtain ⟨a', b', B, he, -, hle⟩ := mem_blocked (ho.demanding hs).ruled h hf
  obtain ⟨rfl, rfl⟩ : a = a' ∧ b = b' := by simpa using he
  exact le_trans hle (round_le_cap ho hs h hL B a)

/-- A grounded atom is a plain array before the promotions of the accepted round. -/
theorem arr_le_hard_of_grounded (ho : s.Open) (hs : s.Indexed) (h : Primed s seeds) (hL : s.Closed L)
    (hx : s.Grounded L x) (hle : L x ≤ .arr) :
    .arr ≤ (hard s seeds (s.solution seeds).blocked).value x := by
  have hd := ho.demanding hs
  have hrest := (hard_spec hs h (s.solution seeds).blocked).2
  have hcap : ∀ y, (hard s seeds (s.solution seeds).blocked).value y ≤ L y :=
    hard_le_closed hd.ruled h hL (fun y => by rw [ho.checked y]; exact Kind.ptr_le _) _
  induction hx with
  | @pin x hf =>
      obtain ⟨id, hid⟩ := hf
      have hmeets := hrest.calm (id, _) hid trivial x .arr (.pin x .arr)
      exact hd.le_of_meets ⟨id, hid⟩ (by simp [Formula.mentions, Operand.key?]) hmeets (by decide)
  | @join a x hjoin _ ih =>
      have hleads := Store.leads_of_joined hjoin
      have ha := ih (le_trans (hL.le_of_leads ho hs hleads) hle)
      refine le_trans ha ?_
      rcases hjoin with hf | hf
      · have hhands := Formula.Hands.join a x ((hard s seeds (s.solution seeds).blocked).value a)
        exact ho.le_of_meets hs hf hhands.mem_mentions.2
          (hrest.meets_handed hf hhands fun he => by cases he)
      · have hhands := Formula.Hands.joinBack a x ((hard s seeds (s.solution seeds).blocked).value a)
        exact ho.le_of_meets hs hf hhands.mem_mentions.2
          (hrest.meets_handed hf hhands fun he => by cases he)
  | @flow a x hf hstill _ ih =>
      have hleads : s.Leads a x := ⟨_, _, hf, .flow a x .arr⟩
      have hLa := le_trans (hL.le_of_leads ho hs hleads) hle
      have harr : (hard s seeds (s.solution seeds).blocked).value a = .arr :=
        le_antisymm (le_trans (hcap a) hLa) (ih hLa)
      have hopen : .flow a x .arr ∉ (s.solution seeds).blocked := by
        intro hmem
        have hbound := ntArr_le_cap_of_blocked ho hs h hL hmem
        unfold Store.cap at hbound
        rw [if_neg hstill] at hbound
        exact absurd (le_trans hbound hLa) (by decide)
      have hmeets := hrest.meets_flow hf (by decide) hopen harr
      exact hd.le_of_meets hf (Formula.Hands.flow a x .arr).mem_mentions.2 hmeets (by decide)

/-! ### When nothing is lost -/

/-- Above plain arrays nothing is ever lost. -/
theorem le_accepted_of_ntArr_le (hs : s.Ruled) (h : Primed s seeds)
    (hmin : ∀ E, s.Closed E → (∀ x, s.value x ≤ E x) → ∀ x, L x ≤ E x) (hx : .ntArr ≤ L x) :
    L x ≤ (accepted s seeds).value x := by
  have hmax := hmin _ (closed_accepted_max_arr hs h)
    (fun y => le_trans (start_le_accepted hs h y) (le_max_left _ _)) x
  rcases le_max_iff.1 hmax with hle | hle
  · exact hle
  · exact absurd (le_trans hx hle) (by decide)

variable (hL : s.Closed L) (hmin : ∀ E, s.Closed E → (∀ x, s.value x ≤ E x) → ∀ x, L x ≤ E x)

include hL hmin

theorem flowsMet_iff_le (ho : s.Open) (hs : s.Indexed) (h : Primed s seeds) :
    FlowsMet s (accepted s seeds) ↔ ∀ x, L x ≤ (accepted s seeds).value x := by
  have hd := ho.demanding hs
  constructor
  · intro hmet
    exact hmin _ (closed_of_flowsMet hd.ruled h hmet) (start_le_accepted hd.ruled h)
  · intro hle a b hf ha
    have hhard := hard_eq_of_round_arr hd h ha
    have hLa := hard_le_closed hd.ruled h hL (fun y => by rw [ho.checked y]; exact Kind.ptr_le _)
      (s.solution seeds).blocked a
    rw [hhard] at hLa
    exact le_trans hLa (le_trans (hL.le_of_leads ho hs ⟨_, _, hf, .flow a b .arr⟩) (hle b))

theorem flowsMet_of_upheld (ho : s.Open) (hs : s.Indexed) (h : Primed s seeds) (hup : s.Upheld L) :
    FlowsMet s (accepted s seeds) := by
  intro a b hf ha
  have hd := ho.demanding hs
  by_cases hblocked : .flow a b .arr ∈ (s.solution seeds).blocked
  · exfalso
    have hcap := ntArr_le_cap_of_blocked ho hs h hL hblocked
    unfold Store.cap at hcap
    have hnot : ¬ .ntArr ≤ L a := by
      intro hLa
      have hle := le_trans hLa (le_accepted_of_ntArr_le hd.ruled h hmin hLa)
      rw [ha] at hle
      exact absurd hle (by decide)
    by_cases hlifted : s.Lifted L a
    · obtain ⟨p, hp, harr, hpa⟩ := hlifted
      obtain ⟨q, hq, hground, hqp⟩ := hup p hp harr
      have hLq : L q ≤ .arr := harr ▸ hL.le_of_path ho hs hqp
      -- What stands behind `p` is promoted in every round, and so reaches `a`.
      have hhard := hard_le_closed hd.ruled h hL (fun y => by rw [ho.checked y]; exact Kind.ptr_le _)
        (s.solution seeds).blocked q
      have hval := le_antisymm (le_trans hhard hLq) (arr_le_hard_of_grounded ho hs h hL hground hLq)
      have hround := ntArr_le_round hd h ((mem_promotions_hard hd h _).2 ⟨hval, hq⟩)
      have hpath := (closed_accepted_max_arr hd.ruled h).le_of_path ho hs (hqp.trans hpa)
      have hle := le_trans hround (le_trans (le_max_left _ _) hpath)
      rw [ha, max_self] at hle
      exact absurd hle (by decide)
    · rw [if_neg hlifted] at hcap
      exact hnot hcap
  · have hmeets := (accepted_atRest hd.ruled h).meets_flow hf (by decide) hblocked ha
    exact hd.le_of_meets hf (Formula.Hands.flow a b .arr).mem_mentions.2 hmeets (by decide)

/-- What promotions could reach, they do reach, if nothing is lost. -/
theorem ntArr_le_accepted_of_lifted (ho : s.Open) (hs : s.Indexed) (h : Primed s seeds)
    (hmet : FlowsMet s (accepted s seeds)) (hx : s.Lifted L x) : .ntArr ≤ (accepted s seeds).value x := by
  obtain ⟨p, hp, harr, hpath⟩ := hx
  have hle := (flowsMet_iff_le hL hmin ho hs h).1 hmet p
  rw [harr] at hle
  exact le_trans (ntArr_le_round_of_eager (ho.demanding hs) h hp hle)
    ((closed_of_flowsMet (ho.demanding hs).ruled h hmet).le_of_path ho hs hpath)

/-- If nothing is lost, every plain array before the promotions is grounded. -/
theorem grounded_of_hard (ho : s.Open) (hs : s.Indexed) (h : Primed s seeds)
    (hmet : FlowsMet s (accepted s seeds))
    (hx : (hard s seeds (s.solution seeds).blocked).value x = .arr) : s.Grounded L x := by
  have hd := ho.demanding hs
  obtain ⟨hfirst, -⟩ := hard_spec hs h (s.solution seeds).blocked
  refine hfirst.keeps_toward (P := fun r => ∀ x, r.value x = .arr → s.Grounded L x)
    (fun r r' hact hrest hr => ?_) (fun x hx => ?_) x hx
  · cases hact with
    | visit => exact hr
    | fire => exact hr
    | @raise id f y k hf hask =>
        intro x hx
        by_cases hxy : x = y
        · subst hxy
          rcases raise_cases s id r x k with ⟨e, -⟩ | ⟨c, -, -, -, e⟩ | ⟨c, g, r'', hc, hg, -, -, e⟩
          · rw [e] at hx
            exact hr x hx
          · rw [e] at hx
            exact hr x hx
          · rw [e, value_count, value_assign, if_pos rfl] at hx
            rw [Atom.floor?_of_permits (ho.permits hc k)] at hg
            have hk : k = .arr := (Option.some.inj hg).trans hx
            subst hk
            have hforce : s.InForce f := ⟨id, hf⟩
            rcases hask.of_isDemand (ho.demand f hforce) with rfl | ⟨a, ha, hhands, hopen⟩
            · exact .pin hforce
            · have hground := hr a ha
              cases hhands with
              | join => exact .join (.inl hforce) hground
              | joinBack => exact .join (.inr hforce) hground
              | flow =>
                  refine .flow hforce (fun hlifted => ?_) hground
                  -- The flow was fired, and is not stale in the end.
                  have hfired := (hopen rfl).resolve_left (by decide)
                  rw [← fired_raise s id r x .arr] at hfired
                  have hval := value_of_mem_fired (accepted_stale hs h)
                    (fired_hard_subset hs h (hrest.fired_subset hfired))
                  have hle := ntArr_le_accepted_of_lifted hL hmin ho hs h hmet hlifted
                  rw [hval] at hle
                  exact absurd hle (by decide)
        · rw [value_raise_of_ne s id r k hxy] at hx
          exact hr x hx
  · have hstart : (Run.start s).value x = .ptr := ho.checked x
    rw [hstart] at hx
    exact absurd hx (by decide)

theorem upheld_of_flowsMet (ho : s.Open) (hs : s.Indexed) (h : Primed s seeds)
    (hmet : FlowsMet s (accepted s seeds)) : s.Upheld L := by
  intro p hp harr
  have hd := ho.demanding hs
  have hntArr := ntArr_le_accepted_of_lifted hL hmin ho hs h hmet ⟨p, hp, harr, .refl⟩
  rcases (ahead_round hd h (s.solution seeds).blocked).moved p with hsame | ⟨-, q, hq, hpath⟩
  · have hle := hard_le_closed hd.ruled h hL (fun y => by rw [ho.checked y]; exact Kind.ptr_le _)
      (s.solution seeds).blocked p
    rw [← hsame, harr] at hle
    exact absurd (le_trans hntArr hle) (by decide)
  · obtain ⟨hval, heager⟩ := (mem_promotions_hard hd h _).1 hq
    exact ⟨q, heager, grounded_of_hard hL hmin ho hs h hmet hval, hpath⟩

omit hL hmin

/-! ### The report -/

/-- All that an accepted round can leave violated is flows of plain arrays. -/
theorem violation_accepted (ho : s.Open) (hs : s.Indexed) (h : Primed s seeds) (hf : s.InForce f)
    {v : Option AtomKey × Conflict} (hv : f.violation? (accepted s seeds).value = some v) :
    v.2 = .implicationFails ∧ ∃ a b, f = .flow a b .arr ∧ (accepted s seeds).value a = .arr ∧
      (accepted s seeds).value b = .ptr := by
  have hd := ho.demanding hs
  have hrest := accepted_atRest hd.ruled h
  cases ho.demand f hf with
  | pin x k =>
      obtain ⟨id, hid⟩ := hf
      have hmeets := hrest.calm (id, _) hid trivial x k (.pin x k)
      have hle := ho.le_of_meets hs ⟨id, hid⟩ (by simp [Formula.mentions, Operand.key?]) hmeets
      rw [Formula.violation?_pin, if_neg (not_lt.2 hle)] at hv
      cases hv
  | join a b =>
      obtain ⟨hba, hab⟩ := hrest.calm.meets_join hf
      obtain ⟨ha, hb⟩ := (Formula.Hands.join a b .ptr).mem_mentions
      have heq := le_antisymm (ho.le_of_meets hs hf hb hab) (ho.le_of_meets hs hf ha hba)
      rw [Formula.violation?_join, if_pos heq] at hv
      cases hv
  | @flow a b k hk =>
      rw [Formula.violation?_flow] at hv
      split at hv
      · rename_i hunmet
        obtain ⟨ha, hb⟩ := hunmet
        have hblocked : ¬ (.flow a b k ∉ (s.solution seeds).blocked) := by
          intro hopen
          refine hb ?_
          have hhands := Formula.Hands.flow a b k
          rw [← ha] at hhands hopen hf ⊢
          exact ho.le_of_meets hs hf hhands.mem_mentions.2 (hrest.meets_handed hf hhands fun _ => .inr hopen)
        obtain ⟨a', b', -, he, -⟩ := mem_blocked hd.ruled h (not_not.1 hblocked)
        obtain ⟨⟨rfl, rfl⟩, rfl, -⟩ : (a = a' ∧ k = .arr) ∧ b = b' ∧ k = .arr := by simpa using he
        refine ⟨by rw [← Option.some.inj hv], a, b, rfl, ha, Kind.eq_ptr_of_lt_arr (not_le.1 hb)⟩
      · cases hv

theorem isEmpty_conflicts_accepted (ho : s.Open) (hs : s.Indexed) (h : Primed s seeds) :
    ((accepted s seeds).conflicts s).isEmpty = true ↔ FlowsMet s (accepted s seeds) := by
  have hrefusals : (accepted s seeds).refusals = ∅ := refusals_round ho hs h _
  rw [isEmpty_conflicts, hrefusals]
  constructor
  · intro hnone a b hf ha
    have hv := hnone.2 _ hf
    rw [Formula.violation?_flow] at hv
    by_contra hb
    rw [if_pos ⟨ha, hb⟩] at hv
    exact nomatch hv
  · intro hmet
    refine ⟨rfl, fun f hf => ?_⟩
    cases hv : f.violation? (accepted s seeds).value with
    | none => rfl
    | some v =>
        obtain ⟨-, a, b, rfl, ha, hb⟩ := violation_accepted ho hs h hf hv
        have hle := hmet a b hf ha
        rw [hb] at hle
        exact absurd hle (by decide)

end Run

namespace Store

variable {s : Store}

/-! ### Preferences and their absence -/

theorem get?_indifferently (s : Store) (x : AtomKey) :
    s.indifferently.atoms.get? x = (s.atoms.get? x).map fun a => { a with soft := {} } :=
  SortedMap.get?_mapValues ..

theorem sameFilters_indifferently (s : Store) : s.SameFilters s.indifferently := by
  intro x
  rw [get?_indifferently, Option.map_map]
  rfl

theorem Indexed.indifferently (hs : s.Indexed) : s.indifferently.Indexed := by
  refine hs.congr rfl rfl rfl (fun x id => ?_) (fun x id => ?_) fun x hx => ?_
  · unfold ActiveAt
    rw [get?_indifferently]
    cases s.atoms.get? x <;> simp
  · unfold ErasedAt
    rw [get?_indifferently]
    cases s.atoms.get? x <;> simp
  · unfold SortedMap.contains at hx ⊢
    rwa [get?_indifferently, Option.isSome_map]

theorem Open.indifferently (ho : s.Open) : s.indifferently.Open where
  demand := ho.demand
  triple := ho.triple
  unfiltered x a ha := by
    rw [get?_indifferently] at ha
    obtain ⟨b, hb, rfl⟩ := Option.map_eq_some_iff.1 ha
    exact ho.unfiltered x b hb
  checked := ho.checked

theorem unchecked_indifferently (x : AtomKey) : s.indifferently.Unchecked x ↔ s.Unchecked x := by
  constructor
  · intro h
    exact h.transfer (fun _ hy => hy) (fun _ hf => hf) (sameFilters_indifferently s).symm
  · intro h
    exact h.transfer (fun _ hy => hy) (fun _ hf => hf) (sameFilters_indifferently s)

/-- Without preferences the least solution is found, which is the same with them. -/
theorem least_indifferently (hs : s.Indexed) (ho : s.Open) :
    s.Closed s.indifferently.solve.2.value ∧
      ∀ E, s.Closed E → (∀ x, s.value x ≤ E x) → ∀ x, s.indifferently.solve.2.value x ≤ E x := by
  have hs' := hs.indifferently
  have hprimed := primed_keys hs'
  have hvalue : s.indifferently.solve.2.value = (Run.accepted s.indifferently s.indifferently.atoms.keys).value :=
    funext (value_solve hs')
  have hsoft : ∀ x a, s.indifferently.atoms.get? x = some a → a.soft = {} := by
    intro x a ha
    rw [get?_indifferently] at ha
    obtain ⟨b, -, rfl⟩ := Option.map_eq_some_iff.1 ha
    rfl
  obtain ⟨hclosed, hmin⟩ := Run.accepted_least (ho.indifferently.demanding hs').ruled hprimed hsoft
  rw [hvalue]
  refine ⟨hclosed.congr (fun _ hf => hf) (fun x => (unchecked_indifferently x).symm)
    (sameFilters_indifferently s).symm, fun E hE hstart => hmin E ?_ hstart⟩
  exact hE.congr (fun _ hf => hf) unchecked_indifferently (sameFilters_indifferently s)

/-- **Preferences refine exactly where they are upheld.**  Then nothing is left unsatisfied
and no atom falls below the kind it has without them.  Otherwise some does, and flows of
plain arrays are reported; but atoms that are above plain arrays without preferences stay
so, and the unchecked atoms are the same. -/
theorem isSolved_iff_upheld (hs : s.Built) (ho : s.Open) :
    (s.solve.1.isSolved = true ↔ s.Upheld s.indifferently.solve.2.value) ∧
    (s.solve.1.isSolved = true ↔ ∀ x, s.indifferently.solve.2.value x ≤ s.solve.2.value x) ∧
    (∀ x, .ntArr ≤ s.indifferently.solve.2.value x →
      s.indifferently.solve.2.value x ≤ s.solve.2.value x) ∧
    (∀ x, s.solve.2.value x = .wild ↔ s.indifferently.solve.2.value x = .wild) ∧
    ∀ site conflict, s.solve.1.conflicts.get? site = some conflict →
      conflict = .implicationFails ∧ ∃ a b, s.formula? site.constraint = some (.flow a b .arr) ∧
        s.solve.2.value a = .arr ∧ s.solve.2.value b = .ptr := by
  have hi := hs.indexed
  have hd := ho.demanding hi
  have hprimed := primed_keys hi
  obtain ⟨hclosed, hmin⟩ := least_indifferently hi ho
  have hrun : (s.solution s.atoms.keys).run = Run.accepted s s.atoms.keys :=
    (solution_spec hi hprimed).1
  have hreport : s.solve.1.conflicts = (Run.accepted s s.atoms.keys).conflicts s := by
    rw [← hrun]
    rfl
  have hsolved : s.solve.1.isSolved = true ↔ Run.FlowsMet s (Run.accepted s s.atoms.keys) := by
    unfold Outcome.isSolved
    rw [hreport]
    exact Run.isEmpty_conflicts_accepted ho hi hprimed
  simp only [value_solve hi, hsolved, hreport]
  refine ⟨⟨Run.upheld_of_flowsMet hclosed hmin ho hi hprimed, Run.flowsMet_of_upheld hclosed hmin ho hi hprimed⟩,
    Run.flowsMet_iff_le hclosed hmin ho hi hprimed, fun x hx => ?_, fun x => ?_, fun site conflict hc => ?_⟩
  · exact Run.le_accepted_of_ntArr_le hd.ruled hprimed hmin hx
  · have hi' := hi.indifferently
    rw [value_solve hi', Run.accepted, Run.accepted, Run.value_round_eq_wild hd.ruled hprimed,
      Run.value_round_eq_wild (ho.indifferently.demanding hi').ruled (primed_keys hi'),
      unchecked_indifferently]
  · rcases Run.get?_conflicts.1 hc with ⟨r, hr, -⟩ | ⟨-, f, hf, hv⟩
    · rw [show (Run.accepted s s.atoms.keys).refusals = ∅ from Run.refusals_round ho hi hprimed _] at hr
      exact nomatch hr
    · obtain ⟨hkind, a, b, rfl, ha, hb⟩ := Run.violation_accepted ho hi hprimed ⟨_, hf⟩ hv
      exact ⟨hkind, a, b, (mem_activeFormulas.1 hf).2, ha, hb⟩

/-! ### Two concrete stores -/

/-- A plain array and another atom that would rather be null-terminated: it flows there, and
back if there is a way back. -/
def swinging (back : Bool) : Store :=
  let s := flowingKinds.foldl (·.addFlow 0 1 ·) ({} : Store)
  let s := if back then flowingKinds.foldl (·.addFlow 1 0 ·) s else s
  let s := (s.addEq (.atom 0) (.kind .arr)).2
  s.setSoft 1 { ifArrThenNtArr := true }

theorem swinging_recorded (back : Bool) : (swinging back).Recorded := by
  cases back with
  | false => exact ((Grows.refl.flow 0 1).pin 0 .arr {}).prefer 1 _
  | true => exact (((Grows.refl.flow 0 1).flow 1 0).pin 0 .arr {}).prefer 1 _

theorem swinging_open (back : Bool) : (swinging back).Open where
  demand := (swinging_recorded back).fresh.demand
  triple := (swinging_recorded back).fresh.triple
  unfiltered := by
    have hall : (swinging back).atoms.entries.all (fun e => e.2.forbidden = ∅) = true := by
      cases back <;> decide +kernel
    intro x a ha
    exact of_decide_eq_true (List.all_eq_true.1 hall (x, a) ((SortedMap.mem_entries_iff _ x a).2 ha))
  checked := (swinging_recorded back).fresh.checked

/-- On a cycle the promotion raises the array that it came from, and all is lost. -/
theorem swinging_back_lost : (swinging true).Built ∧ (swinging true).Open ∧
    (swinging true).solve.1.isSolved = false ∧
    (swinging true).solve.2.value 1 < (swinging true).indifferently.solve.2.value 1 :=
  ⟨(swinging_recorded true).built, swinging_open true, by decide +kernel, by decide +kernel⟩

/-- Without a way back the promotion is upheld. -/
theorem swinging_forth_upheld : ((swinging false).Built ∧ (swinging false).Open) ∧
    (swinging false).Upheld (swinging false).indifferently.solve.2.value ∧
    (swinging false).solve.2.value 1 = .ntArr := by
  have hbuilt := (swinging_recorded false).built
  have hopen := swinging_open false
  exact ⟨⟨hbuilt, hopen⟩, (isSolved_iff_upheld hbuilt hopen).1.1 (by decide +kernel),
    by decide +kernel⟩

end Store

end PointerKinds
