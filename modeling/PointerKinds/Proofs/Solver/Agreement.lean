/-
Solving one group again, against solving everything again.

Releasing an atom erases what holds it and solves its group alone; `rewound` is the store
in which the same is erased and everything is solved from scratch.  Both end with the same
unchecked atoms, since both are steady.  For the other kinds the group alone can keep too
much: what lies outside it keeps kinds that only the released atom accounted for.  That is
all that can go wrong as long as solving from scratch meets every flow of plain arrays: then
its kinds bound every round on the group, so no flow is blocked there that it fires, and the
group rises to meet them.

Where the first solution left nothing unsatisfied, nothing outside the group had its kind
from an unchecked atom, and the two agree.
-/
import PointerKinds.Proofs.Solver.Edits
import PointerKinds.Proofs.Solver.Promotion
import PointerKinds.Proofs.Solver.Verdict

namespace PointerKinds

namespace Store

variable {s t : Store} {f : Formula} {key a b x : AtomKey} {k : Kind} {id : ConstraintId}
  {keys region seeds : List AtomKey} {E : AtomKey → Kind}

/-- The store in which everything is about to be solved again. -/
def rewound (s : Store) (key : AtomKey) : Store := ((s.wildForcing key).foldl erase s).reset

theorem Reached.transfer (h : s.Reached x) (hforce : ∀ f, s.InForce f → t.InForce f)
    (hfilter : s.SameFilters t) : t.Reached x := by
  induction h with
  | pin hf hp => exact .pin (hforce _ hf) (hp.congr hfilter)
  | join hf _ hp ih => exact .join (hforce _ hf) ih (hp.congr hfilter)
  | joinBack hf _ hp ih => exact .joinBack (hforce _ hf) ih (hp.congr hfilter)
  | flow hf _ hp ih => exact .flow (hforce _ hf) ih (hp.congr hfilter)

/-! ### What erasing leaves -/

theorem inForce_of_rewound (h : (s.rewound key).InForce f) : s.InForce f := by
  obtain ⟨id, hf⟩ := h
  exact ⟨id, (mem_activeFormulas_eraseAll.1 hf).1⟩

/-- Only what mentions the atom is erased, and of flows only those of unchecked pointers. -/
theorem inForce_rewound (hs : s.Indexed) (hf : s.InForce f)
    (hkept : key ∉ f.mentions ∨ ∃ a b k, k ≠ .wild ∧ f = .flow a b k) : (s.rewound key).InForce f := by
  obtain ⟨id, hid⟩ := hf
  refine ⟨id, mem_activeFormulas_eraseAll.2 ⟨hid, fun hmem => ?_⟩⟩
  rcases hkept with hnot | ⟨a, b, k, hk, rfl⟩
  · exact hnot (mentions_of_mem_wildForcing hs hmem hid)
  · obtain ⟨c, hc, rfl⟩ := List.mem_map.1 hmem
    obtain ⟨hat, hforces⟩ := List.mem_filter.1 hc
    have hformula := (mem_formulasAt.1 hat).2
    rw [(mem_activeFormulas.1 hid).2] at hformula
    rw [← Option.some.inj hformula] at hforces
    simp only [forcesWild, handsOnWild, Bool.and_eq_true] at hforces
    obtain ⟨-, hforces⟩ := hforces
    split at hforces
    · exact hk (of_decide_eq_true hforces)
    · simp at hforces

theorem sameFilters_rewound (s : Store) (key : AtomKey) : s.SameFilters (s.rewound key) :=
  sameFilters_released s key []

theorem Demanding.rewound (hs : s.Demanding) (key : AtomKey) : (s.rewound key).Demanding where
  indexed := (hs.indexed.eraseAll _).reset
  demand f hf := hs.demand f (inForce_of_rewound hf)
  paired a b := by
    constructor
    · intro hf
      exact inForce_rewound hs.indexed ((hs.paired a b).1 (inForce_of_rewound hf))
        (.inr ⟨a, b, .ntArr, by decide, rfl⟩)
    · intro hf
      exact inForce_rewound hs.indexed ((hs.paired a b).2 (inForce_of_rewound hf))
        (.inr ⟨a, b, .arr, by decide, rfl⟩)
  permitted x c hc k hk := by
    have hkey := sameFilters_rewound s key x
    rw [hc, Option.map_some] at hkey
    obtain ⟨d, hd, he⟩ := Option.map_eq_some_iff.1 hkey.symm
    have hp := hs.permitted x d hd k hk
    unfold Atom.permits at hp ⊢
    rwa [← he]

/-- The two stores differ in their kinds alone. -/
theorem Demanding.released (hs : s.Demanding) (key : AtomKey) (keys : List AtomKey) :
    (s.released key keys).Demanding where
  indexed := (hs.indexed.eraseAll _).lower _
  demand := (hs.rewound key).demand
  paired := (hs.rewound key).paired
  permitted := (hs.rewound key).permitted

theorem inForce_released : (s.released key keys).InForce f ↔ (s.rewound key).InForce f := Iff.rfl

theorem inForce_commit (run : Run) : (s.commit run).InForce f ↔ s.InForce f := Iff.rfl

theorem inForce_solve : s.solve.2.InForce f ↔ s.InForce f := Iff.rfl

theorem sameFilters_commit (s : Store) (run : Run) : s.SameFilters (s.commit run) := fun _ => rfl

theorem sameFilters_solve (s : Store) : s.SameFilters s.solve.2 := fun _ => rfl

theorem eager_released_iff : (s.released key keys).Eager x ↔ (s.rewound key).Eager x := Iff.rfl

/-! ### The unchecked atoms -/

theorem steady_solve_rewound (h : s.Steady) (key : AtomKey) : (s.rewound key).solve.2.Steady :=
  steady_solve_reset (h.indexed.eraseAll _) (demand_eraseAll h.demand _)

/-- Both ways of solving again make the same atoms unchecked. -/
theorem Steady.value_makeNonWild_eq_wild_iff (h : s.Steady) (hkey : s.value key = .wild)
    (hregion : ∀ x, x ∈ region ↔ (RootCauses.ofStore s).Same key x) :
    (s.makeNonWild key region).2.value x = .wild ↔ (s.rewound key).solve.2.value x = .wild := by
  rw [(h.makeNonWild fun _ => hregion).value_eq_wild_iff, (steady_solve_rewound h key).value_eq_wild_iff,
    makeNonWild_of_wild hkey]
  have hfilter : (s.released key (s.regionAround key region)).SameFilters (s.rewound key) := fun _ => rfl
  constructor
  · intro hx
    refine hx.transfer (fun f hf => ?_)
      (((sameFilters_commit _ _).symm.trans hfilter).trans (sameFilters_solve _))
    rw [inForce_commit, inForce_released] at hf
    exact inForce_solve.2 hf
  · intro hx
    refine hx.transfer (fun f hf => ?_)
      (((sameFilters_solve _).symm.trans hfilter.symm).trans (sameFilters_commit _ _))
    rw [inForce_solve, ← inForce_released] at hf
    exact (inForce_commit _).2 hf

theorem value_makeNonWild (h : s.Steady) (hkey : s.value key = .wild) (x : AtomKey) :
    (s.makeNonWild key region).2.value x =
      (Run.accepted (s.released key (s.regionAround key region)) (s.regionAround key region)).value x := by
  have hs : (s.released key (s.regionAround key region)).Indexed := (h.indexed.eraseAll _).lower _
  rw [makeNonWild_of_wild hkey]
  unfold Run.accepted
  rw [← (solution_spec hs (h.primed_released key _)).1]
  rfl

/-- The kinds that solving everything again finds. -/
def resolved (s : Store) (key x : AtomKey) : Kind :=
  (Run.accepted (s.rewound key) (s.rewound key).atoms.keys).value x

theorem value_solve_rewound (hs : s.Indexed) (key x : AtomKey) :
    (s.rewound key).solve.2.value x = s.resolved key x :=
  value_solve (hs.eraseAll _).reset x

/-- What solving everything again leaves of the flows of plain arrays. -/
def FlowsResolved (s : Store) (key : AtomKey) : Prop :=
  Run.FlowsMet (s.rewound key) (Run.accepted (s.rewound key) (s.rewound key).atoms.keys)

theorem closed_resolved (hd : s.Demanding) (hmet : s.FlowsResolved key) :
    (s.rewound key).Closed (s.resolved key) :=
  Run.closed_of_flowsMet (hd.rewound key).ruled (primed_keys (hd.rewound key).indexed) hmet

theorem unchecked_released_iff (h : s.Steady) (hd : s.Demanding) (hkey : s.value key = .wild)
    (hregion : ∀ x, x ∈ region ↔ (RootCauses.ofStore s).Same key x) :
    (s.released key (s.regionAround key region)).Unchecked x ↔ (s.rewound key).Unchecked x := by
  have hsame := h.value_makeNonWild_eq_wild_iff (x := x) hkey hregion
  rw [value_makeNonWild h hkey, value_solve_rewound hd.indexed] at hsame
  unfold resolved Run.accepted at hsame
  rwa [Run.value_round_eq_wild (hd.released key _).ruled (h.primed_released key _),
    Run.value_round_eq_wild (hd.rewound key).ruled (primed_keys (hd.rewound key).indexed)] at hsame

/-- An atom that is eager never ends up a plain array when everything is solved again. -/
theorem ntArr_le_resolved (hd : s.Demanding) (heager : (s.rewound key).Eager x)
    (hx : .arr ≤ s.resolved key x) : .ntArr ≤ s.resolved key x :=
  Run.ntArr_le_round_of_eager (hd.rewound key) (primed_keys (hd.rewound key).indexed) heager hx

/-! ### The kinds below -/

/-- Where what stays is bounded by solving everything again, so is every round on the group. -/
theorem round_released_le (h : s.Steady) (hd : s.Demanding) (hkey : s.value key = .wild)
    (hregion : ∀ x, x ∈ region ↔ (RootCauses.ofStore s).Same key x) (hmet : s.FlowsResolved key)
    (hle : ∀ x, x ∉ s.regionAround key region → s.value x ≤ s.resolved key x) (blocked : List Formula) :
    ∀ x, (Run.round (s.released key (s.regionAround key region)) (s.regionAround key region)
      blocked).value x ≤ s.resolved key x := by
  have ht := hd.released key (s.regionAround key region)
  have hprimed := h.primed_released key (s.regionAround key region)
  have hclosed : (s.released key (s.regionAround key region)).Closed (s.resolved key) :=
    (closed_resolved hd hmet).congr (fun _ hf => hf) (fun _ => unchecked_released_iff h hd hkey hregion)
      fun _ => rfl
  have hstart : ∀ x, (s.released key (s.regionAround key region)).value x ≤ s.resolved key x := by
    intro x
    rw [value_released]
    split
    · exact Kind.ptr_le _
    · rename_i hx
      exact hle x hx
  refine Run.round_le_closed ht.ruled hprimed hclosed hstart blocked fun x hx => ?_
  obtain ⟨harr, heager⟩ := (Run.mem_promotions_hard ht hprimed blocked).1 hx
  have hhard := Run.hard_le_closed ht.ruled hprimed hclosed hstart blocked x
  rw [harr] at hhard
  exact ntArr_le_resolved hd (eager_released_iff.1 heager) hhard

/-- Then solving the group finds no less than solving everything. -/
theorem resolved_le (h : s.Steady) (hd : s.Demanding)
    (hle : ∀ blocked x, (Run.round (s.released key keys) keys blocked).value x ≤ s.resolved key x) :
    ∀ x, s.resolved key x ≤ (Run.accepted (s.released key keys) keys).value x := by
  have hu := hd.rewound key
  have ht := hd.released key keys
  have hprimed := h.primed_released key keys
  have hrest := Run.accepted_atRest ht.ruled hprimed
  refine Run.round_le_of hu (primed_keys hu.indexed) (Run.accepted_stale hu.indexed (primed_keys hu.indexed))
    (fun x => ?_) (fun x k hf => ?_) (fun f a x k hf hhands hk hkeep => ?_) fun x hx harr => ?_
  · have hptr : (s.rewound key).value x = .ptr := value_reset _ x
    rw [hptr]
    exact Kind.ptr_le _
  · obtain ⟨id, hid⟩ := hf
    exact hrest.calm (id, _) hid trivial x k (.pin x k)
  · by_cases hflow : f = .flow a x k
    · subst hflow
      -- The source has the same kind in both, which no round on the group goes above.
      have hval : (Run.accepted (s.released key keys) keys).value a = k :=
        le_antisymm ((hkeep rfl) ▸ hle _ a) hk
      have hopen : .flow a x k ∉ ((s.released key keys).solution keys).blocked := by
        intro hblocked
        obtain ⟨a', x', B, he, -, hup⟩ := Run.mem_blocked ht.ruled hprimed hblocked
        obtain ⟨⟨rfl, rfl⟩, rfl, -⟩ : (a = a' ∧ k = .arr) ∧ x = x' ∧ k = .arr := by simpa using he
        have hbound := le_trans hup (hle B a)
        have hsource : s.resolved key a = .arr := hkeep rfl
        rw [hsource] at hbound
        exact absurd hbound (by decide)
      rw [← hval] at hf hhands hopen ⊢
      exact hrest.meets_handed hf hhands fun _ => .inr hopen
    · refine Meets.of_le ?_ hk
      cases hhands with
      | join => exact hrest.meets_handed hf (.join a x _) fun he => nomatch he
      | joinBack => exact hrest.meets_handed hf (.joinBack a x _) fun he => nomatch he
      | flow => exact absurd rfl hflow
  · obtain ⟨-, heager⟩ := (Run.mem_promotions_hard hu (primed_keys hu.indexed) _).1 hx
    exact Run.ntArr_le_round_of_eager ht hprimed (eager_released_iff.2 heager) harr

/-- The two ways of solving again agree exactly if what stays is bounded. -/
theorem makeNonWild_eq_iff (h : s.Steady) (hd : s.Demanding) (hkey : s.value key = .wild)
    (hregion : ∀ x, x ∈ region ↔ (RootCauses.ofStore s).Same key x) (hmet : s.FlowsResolved key) :
    (∀ x, (s.makeNonWild key region).2.value x = s.resolved key x) ↔
      ∀ x, x ∉ s.regionAround key region → s.value x ≤ s.resolved key x := by
  have hprimed := h.primed_released key (s.regionAround key region)
  constructor
  · intro heq x hx
    rw [← heq, value_makeNonWild h hkey]
    have hstart := Run.start_le_accepted (hd.released key _).ruled hprimed x
    rwa [value_released, if_neg hx] at hstart
  · intro hle x
    have hround := round_released_le h hd hkey hregion hmet hle
    rw [value_makeNonWild h hkey]
    exact le_antisymm (hround _ x) (resolved_le h hd hround x)

/-! ### After a solution that left nothing unsatisfied -/

/-- An environment satisfies what is in force. -/
structure Satisfied (s : Store) (E : AtomKey → Kind) : Prop where
  pin : ∀ x k, s.InForce (.pin x k) → k ≤ E x
  join : ∀ a b, s.Joined a b → E a = E b
  flow : ∀ a b k, s.InForce (.flow a b k) → E a = k → k ≤ E b

theorem satisfied_solve (hsolved : s.solve.1.isSolved = true) : s.Satisfied s.solve.2.value := by
  have hnone : ∀ f, s.InForce f → f.violation? s.solve.2.value = none := (Run.isEmpty_conflicts.1 hsolved).2
  refine ⟨fun x k hf => ?_, fun a b hjoin => ?_, fun a b k hf ha => ?_⟩
  · have hv := hnone _ hf
    rw [Formula.violation?_pin] at hv
    by_contra hlt
    rw [if_pos (not_le.1 hlt)] at hv
    exact nomatch hv
  · have hjoined : ∀ a b, s.InForce (.join a b) → s.solve.2.value a = s.solve.2.value b := by
      intro a b hf
      have hv := hnone _ hf
      rw [Formula.violation?_join] at hv
      by_contra hne
      rw [if_neg hne] at hv
      exact nomatch hv
    rcases hjoin with hf | hf
    · exact hjoined a b hf
    · exact (hjoined b a hf).symm
  · have hv := hnone _ hf
    rw [Formula.violation?_flow] at hv
    by_contra hlt
    rw [if_pos ⟨ha, hlt⟩] at hv
    exact nomatch hv

/-- What is handed on to a checked pointer comes from one. -/
theorem Satisfied.source_ne_wild (hE : s.Satisfied E) (hf : s.InForce f) (hhands : f.Hands a x k)
    (hkeep : f = .flow a x k → E a = k) (hx : E x ≠ .wild) : E a ≠ .wild := by
  intro ha
  cases hhands with
  | join => exact hx ((hE.join a x (.inl hf)).symm.trans ha)
  | joinBack => exact hx ((hE.join a x (.inr hf)).symm.trans ha)
  | flow =>
      have hk : k = .wild := (hkeep rfl).symm.trans ha
      subst hk
      exact hx (le_antisymm (Kind.le_wild _) (hE.flow a x .wild hf ha))

/-- Of joins between checked pointers, none is erased. -/
theorem Satisfied.peers_rewound (hs : s.Indexed) (hE : s.Satisfied E) (hkey : E key = .wild)
    (hx : E x ≠ .wild) (h : s.Peers x a) : (s.rewound key).Peers x a ∧ E a = E x := by
  induction h with
  | refl => exact ⟨.refl, rfl⟩
  | @tail b c _ hbc ih =>
      obtain ⟨hpath, hb⟩ := ih
      have hc : E c = E x := (hE.join b c hbc).symm.trans hb
      have hnot : key ≠ b ∧ key ≠ c := by
        constructor
        · intro e
          exact hx (by rw [← hb, ← e, hkey])
        · intro e
          exact hx (by rw [← hc, ← e, hkey])
      have hkept : ∀ f : Formula, f = .join b c ∨ f = .join c b → key ∉ f.mentions := by
        intro f hf
        rcases hf with rfl | rfl <;> simp [Formula.mentions, Operand.key?, hnot]
      refine ⟨hpath.tail ?_, hc⟩
      rcases hbc with hf | hf
      · exact .inl (inForce_rewound hs hf (.inl (hkept _ (.inl rfl))))
      · exact .inr (inForce_rewound hs hf (.inl (hkept _ (.inr rfl))))

/-- The kinds found by solving everything again, where the store has a checked pointer. -/
def bound (s : Store) (key x : AtomKey) : Kind :=
  if s.value x = .wild then .wild else s.resolved key x

theorem bound_of_wild (hx : s.value x = .wild) : s.bound key x = .wild := if_pos hx

theorem bound_of_ne (hx : s.value x ≠ .wild) : s.bound key x = s.resolved key x := if_neg hx

theorem resolved_le_bound (s : Store) (key x : AtomKey) : s.resolved key x ≤ s.bound key x := by
  unfold bound
  split
  · exact Kind.le_wild _
  · exact le_refl _

/-- Erasing leaves no more atoms unchecked. -/
theorem Steady.not_unchecked_rewound (h : s.Steady) (hd : s.Demanding) (hx : s.value x ≠ .wild) :
    ¬ (s.rewound key).Unchecked x := by
  intro hun
  refine hx (h.value_eq_wild_iff.2 ?_)
  have hprimed := primed_keys (hd.rewound key).indexed
  have hwild : s.resolved key x = .wild :=
    (Run.value_round_eq_wild (hd.rewound key).ruled hprimed _).2 hun
  rw [← value_solve_rewound hd.indexed, (steady_solve_rewound h key).value_eq_wild_iff] at hwild
  exact hwild.transfer (fun _ hf => inForce_of_rewound hf) (sameFilters_rewound s key).symm

/-- What is handed on among checked pointers, solving everything again hands on as well. -/
theorem Steady.meets_resolved (h : s.Steady) (hd : s.Demanding) (hE : s.Satisfied s.value)
    (hkey : s.value key = .wild) (hmet : s.FlowsResolved key) (hf : s.InForce f)
    (hhands : f.Hands a x k) (hkeep : f = .flow a x k → s.value a = k) (hx : s.value x ≠ .wild)
    (hk : k ≤ s.resolved key a) : (s.rewound key).Meets (s.resolved key) x k := by
  have ha := hE.source_ne_wild hf hhands hkeep hx
  have hclosed := closed_resolved hd hmet
  have hnot : ∀ y, s.value y ≠ .wild → key ≠ y := by
    intro y hy e
    exact hy (e ▸ hkey)
  have hlink : (s.rewound key).Link a x := by
    cases hhands with
    | join =>
        refine .join (inForce_rewound hd.indexed hf (.inl ?_))
        simp [Formula.mentions, Operand.key?, hnot a ha, hnot x hx]
    | joinBack =>
        refine .joinBack (inForce_rewound hd.indexed hf (.inl ?_))
        simp [Formula.mentions, Operand.key?, hnot a ha, hnot x hx]
    | flow =>
        have hwild : k ≠ .wild := fun e => ha ((hkeep rfl).trans e)
        have hf : (s.rewound key).InForce (.flow a x k) :=
          inForce_rewound hd.indexed hf (.inr ⟨a, x, k, hwild, rfl⟩)
        refine .flow ?_ (h.not_unchecked_rewound hd ha)
        cases k with
        | ptr =>
            cases hd.demand _ (inForce_of_rewound hf) with
            | flow _ _ hne => exact absurd rfl hne
        | arr => exact hf
        | ntArr => exact ((hd.rewound key).paired a x).2 hf
        | wild => exact absurd rfl hwild
  exact (hclosed.link a x hlink).of_le hk

theorem Fresh.demanding (h : s.Fresh) : s.Demanding where
  indexed := h.indexed
  demand := h.demand
  paired a b := by
    constructor
    · intro hf
      exact (h.triple a b .arr (by decide) hf).2.1
    · intro hf
      exact (h.triple a b .ntArr (by decide) hf).1
  permitted := h.permitted

theorem Demanding.solve (hd : s.Demanding) : s.solve.2.Demanding where
  indexed := hd.indexed.solve
  demand := hd.demand
  paired := hd.paired
  permitted := hd.permitted

/-- Where the first solution left nothing unsatisfied, solving everything again finds no less
for what was checked. -/
theorem Fresh.value_le_bound (h : s.Fresh) (hsolved : s.solve.1.isSolved = true)
    (hkey : s.solve.2.value key = .wild) (hmet : s.solve.2.FlowsResolved key) :
    ∀ x, s.solve.2.value x ≤ s.solve.2.bound key x := by
  have hd := h.demanding
  have hd' := hd.solve
  have hsteady := h.steady_solve
  have hprimed := primed_keys h.indexed
  have hE : s.solve.2.Satisfied s.solve.2.value := by
    obtain ⟨hpin, hjoin, hflow⟩ := satisfied_solve hsolved
    exact ⟨hpin, hjoin, hflow⟩
  have hvalue := value_solve h.indexed
  intro x
  rw [hvalue]
  refine Run.round_le_of hd hprimed (Run.accepted_stale h.indexed hprimed) (fun y => ?_) (fun y k hf => ?_)
    (fun f a y k hf hhands hk hkeep => ?_) (fun y hy harr => ?_) x
  · rw [h.checked y]
    exact Kind.ptr_le _
  · by_cases hy : s.solve.2.value y = .wild
    · exact meets_of_le (by rw [bound_of_wild hy]; exact Kind.le_wild _)
    · have hkept : key ∉ (Formula.pin y k).mentions := by
        have hne : key ≠ y := fun e => hy (e ▸ hkey)
        simp [Formula.mentions, Operand.key?, hne]
      have hf' : (s.solve.2.rewound key).InForce (.pin y k) :=
        inForce_rewound hd'.indexed hf (.inl hkept)
      have hmeets := (closed_resolved hd' hmet).pin y k (.pin hf')
      exact (hmeets.mono (resolved_le_bound _ key y)).congr (sameFilters_rewound s.solve.2 key).symm
  · by_cases hy : s.solve.2.value y = .wild
    · exact meets_of_le (by rw [bound_of_wild hy]; exact Kind.le_wild _)
    · have hkeep' : f = .flow a y k → s.solve.2.value a = k := fun hflow => (hvalue a).trans (hkeep hflow)
      have ha := hE.source_ne_wild hf hhands hkeep' hy
      rw [bound_of_ne ha] at hk
      have hmeets := hsteady.meets_resolved hd' hE hkey hmet hf hhands hkeep' hy hk
      exact (hmeets.mono (resolved_le_bound _ key y)).congr (sameFilters_rewound s.solve.2 key).symm
  · by_cases hwild : s.solve.2.value y = .wild
    · rw [bound_of_wild hwild]
      exact Kind.le_wild _
    · rw [bound_of_ne hwild] at harr ⊢
      obtain ⟨-, heager⟩ := (Run.mem_promotions_hard hd hprimed _).1 hy
      have hback : ∀ f, (s.solve.2.rewound key).InForce f → s.InForce f := fun f hf =>
        show s.solve.2.InForce f from inForce_of_rewound hf
      refine ntArr_le_resolved hd' (heager.transfer h.indexed (hd'.rewound key).indexed (fun z => ?_)
        (fun z _ hf => hback _ hf) (sameFilters_rewound s.solve.2 key) fun z => ?_) harr
      · constructor
        · intro hz
          exact Relation.ReflTransGen.mono (fun a b hab => Or.imp (hback _) (hback _) hab) _ _ hz
        · intro hz
          exact (hE.peers_rewound hd'.indexed hkey hwild hz).1
      · exact map_eraseAll soft_atom_erase _ s.solve.2 z

/-- Then the two ways of solving again agree. -/
theorem Fresh.makeNonWild_eq (h : s.Fresh) (hsolved : s.solve.1.isSolved = true)
    (hkey : s.solve.2.value key = .wild)
    (hregion : ∀ x, x ∈ region ↔ (RootCauses.ofStore s.solve.2).Same key x)
    (hmet : s.solve.2.FlowsResolved key) (x : AtomKey) :
    (s.solve.2.makeNonWild key region).2.value x = s.solve.2.resolved key x := by
  have hd := h.demanding.solve
  have hsteady := h.steady_solve
  refine (makeNonWild_eq_iff hsteady hd hkey hregion hmet).2 (fun y hy => ?_) x
  by_cases hwild : s.solve.2.value y = .wild
  · have hstart := Run.start_le_accepted (hd.released key _).ruled
      (hsteady.primed_released key (s.solve.2.regionAround key region)) y
    rw [value_released, if_neg hy, hwild] at hstart
    have hstays := le_antisymm (Kind.le_wild _) hstart
    rw [← value_makeNonWild hsteady hkey, hsteady.value_makeNonWild_eq_wild_iff hkey hregion,
      value_solve_rewound hd.indexed] at hstays
    rw [hstays]
    exact Kind.le_wild _
  · rw [← bound_of_ne hwild]
    exact h.value_le_bound hsolved hkey hmet y

end Store

end PointerKinds
