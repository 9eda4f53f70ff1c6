/-
Solving without preferences finds the least solution.

That no round goes above a solution is plain induction over its acts: what a run does is
to follow pins and links, and a solution yields to both.

That the accepted round is itself a solution is not plain, because it may not fire what
earlier rounds left stale.  But only flows of plain arrays go stale, and only because
their source rose above a plain array.  Now the accepted kinds, with everything below a
plain array lifted to one, are a solution whatever was blocked: a flow out of a plain
array asks nothing of it.  So no round raised the source of a blocked flow any further
than the accepted round did, and there, too, the source is above a plain array: the flow
that was blocked is not needed.
-/
import Mathlib.Order.Bounds.Basic
import PointerKinds.Proofs.Solver.Rules
import PointerKinds.Proofs.Store.Built

namespace PointerKinds

namespace Run

variable {s : Store} {run run' : Run} {blocked : List Formula} {seeds : List AtomKey}
  {x a b : AtomKey} {k : Kind} {E : AtomKey → Kind}

/-! ### No run goes above a solution -/

theorem Acts.le_closed (hs : s.Ruled) (hE : s.Closed E) (hsound : Sound s run)
    (hle : ∀ x, run.value x ≤ E x) (h : Acts s blocked run run') : ∀ x, run'.value x ≤ E x := by
  refine (h.keeps (P := fun r => Sound s r ∧ ∀ x, r.value x ≤ E x) (fun r r' hact hr => ?_)
    ⟨hsound, hle⟩).2
  refine ⟨hr.1.act hs hact, ?_⟩
  cases hact with
  | visit => exact hr.2
  | raise hf hask =>
      refine value_raise_le s _ r _ _ hr.2 ?_
      rcases hr.1.asks hs ⟨_, hf⟩ hask with hpin | ⟨a, hlink, rfl⟩
      · exact hE.pin _ _ hpin
      · exact (hE.link a _ hlink).of_le (hr.2 a)
  | fire => exact hr.2

theorem hard_le_closed (hs : s.Ruled) (h : Primed s seeds) (hE : s.Closed E)
    (hstart : ∀ x, s.value x ≤ E x) (blocked : List Formula) :
    ∀ x, (hard s seeds blocked).value x ≤ E x :=
  (hard_spec hs.indexed h blocked).1.le_closed hs hE (sound_start s) hstart

/-- A solution that has room for what a round promotes is above the whole round. -/
theorem round_le_closed (hs : s.Ruled) (h : Primed s seeds) (hE : s.Closed E)
    (hstart : ∀ x, s.value x ≤ E x) (blocked : List Formula)
    (hpromote : ∀ x ∈ (hard s seeds blocked).promotions s, .ntArr ≤ E x) :
    ∀ x, (round s seeds blocked).value x ≤ E x := by
  refine (round_spec hs.indexed h blocked).1.le_closed hs hE (sound_hard hs h blocked).promote
    fun x => ?_
  rw [value_promote]
  split
  · rename_i hx
    exact hpromote x hx
  · exact hard_le_closed hs h hE hstart blocked x

/-! ### What a run at rest yields to -/

/-- Two atoms whose agreement asks for nothing unmet yield to each other. -/
theorem meets_of_join (hmet : ∀ y k, run.Asks (.join a b) y k → s.Meets run.value y k) :
    s.Meets run.value a (run.value b) ∧ s.Meets run.value b (run.value a) := by
  rcases lt_trichotomy (run.value a) (run.value b) with hlt | he | hlt
  · exact ⟨hmet a _ (.left hlt), Store.meets_of_le (le_of_lt hlt)⟩
  · exact ⟨Store.meets_of_le (le_of_eq he.symm), Store.meets_of_le (le_of_eq he)⟩
  · exact ⟨Store.meets_of_le (le_of_lt hlt), hmet b _ (.right (not_lt.2 (le_of_lt hlt)))⟩

theorem Calm.meets_join (h : Calm s run) (hf : s.InForce (.join a b)) :
    s.Meets run.value a (run.value b) ∧ s.Meets run.value b (run.value a) := by
  obtain ⟨id, hf⟩ := hf
  exact meets_of_join (h (id, .join a b) hf trivial)

theorem Calm.meets_guardedJoin (h : Calm s run) (hf : s.InForce (.guarded x (.join a b)))
    (hx : run.value x = .wild) :
    s.Meets run.value a (run.value b) ∧ s.Meets run.value b (run.value a) := by
  obtain ⟨id, hf⟩ := hf
  exact meets_of_join fun y k hask =>
    h (id, .guarded x (.join a b)) hf trivial y k (.passed (isLive_pin.2 ⟨.inl rfl, hx⟩) hask)

theorem AtRest.meets_pinned (hs : s.Ruled) (h : AtRest s blocked run) (hsound : Sound s run)
    (hpin : s.Pinned x k) : s.Meets run.value x k := by
  cases hpin with
  | pin hf =>
      obtain ⟨id, hf⟩ := hf
      exact h.calm (id, _) hf trivial x k (.pin x k)
  | @guarded y _ _ hf hy =>
      obtain ⟨id, hf⟩ := hf
      have hwild := h.calm.value_eq_wild hs.rule hsound.start hy
      exact h.calm (id, _) hf trivial x k (.passed (isLive_pin.2 ⟨.inl rfl, hwild⟩) (.pin x k))

/-- A run at rest yields to every link, save flows that were blocked at the kind their
source has. -/
theorem AtRest.meets_link (hs : s.Ruled) (h : AtRest s blocked run) (hsound : Sound s run)
    (hlink : s.Link a b) (hopen : run.value a = .arr ∨ run.value a = .ntArr →
      .flow a b (run.value a) ∉ blocked) : s.Meets run.value b (run.value a) := by
  cases hlink with
  | join hf => exact (h.calm.meets_join hf).2
  | joinBack hf => exact (h.calm.meets_join hf).1
  | guarded hf hx =>
      exact (h.calm.meets_guardedJoin hf (h.calm.value_eq_wild hs.rule hsound.start hx)).2
  | guardedBack hf hx =>
      exact (h.calm.meets_guardedJoin hf (h.calm.value_eq_wild hs.rule hsound.start hx)).1
  | flow hf ha =>
      cases hval : run.value a with
      | ptr => exact Store.meets_ptr
      | arr => exact h.meets_flow hf (by decide) (hval ▸ hopen (.inl hval)) hval
      | ntArr => exact h.meets_flow ((hs.paired a b).1 hf) (by decide) (hval ▸ hopen (.inr hval)) hval
      | wild => exact absurd (hsound.wild a hval) ha

/-! ### The accepted round -/

/-- Only flows of plain arrays are blocked, and each for the sake of some round. -/
theorem mem_blocked (hs : s.Ruled) (h : Primed s seeds) {f : Formula}
    (hf : f ∈ (s.solution seeds).blocked) :
    ∃ a b B, f = .flow a b .arr ∧ s.InForce f ∧ .ntArr ≤ (round s seeds B).value a := by
  obtain ⟨B, hstale⟩ := (Store.solution_spec hs.indexed h).2.2 f hf
  obtain ⟨a, b, he, hforce, hle⟩ := mem_stale_round hs h hstale
  exact ⟨a, b, B, he, hforce, hle⟩

variable (s seeds) in
/-- The accepted round. -/
def accepted : Run := round s seeds (s.solution seeds).blocked

theorem accepted_atRest (hs : s.Ruled) (h : Primed s seeds) :
    AtRest s (s.solution seeds).blocked (accepted s seeds) :=
  (round_spec hs.indexed h _).2

theorem accepted_sound (hs : s.Ruled) (h : Primed s seeds) : Sound s (accepted s seeds) :=
  sound_round hs h _

/-- Above a plain array the accepted round yields to every link. -/
theorem accepted_meets_link (hs : s.Ruled) (h : Primed s seeds) (hlink : s.Link a b)
    (ha : (accepted s seeds).value a ≠ .arr) :
    s.Meets (accepted s seeds).value b ((accepted s seeds).value a) := by
  refine (accepted_atRest hs h).meets_link hs (accepted_sound hs h) hlink fun hval hmem => ?_
  obtain ⟨a', b', -, he, -⟩ := mem_blocked hs h hmem
  have hk : (accepted s seeds).value a = .arr := by
    have := (Formula.implies.inj he).1
    simpa using (Formula.eq.inj this).2
  exact ha hk

/-- The accepted kinds, lifted to plain arrays, are a solution whatever was blocked. -/
theorem closed_accepted_max_arr (hs : s.Ruled) (h : Primed s seeds) :
    s.Closed fun x => max ((accepted s seeds).value x) .arr where
  pin x k hpin :=
    ((accepted_atRest hs h).meets_pinned hs (accepted_sound hs h) hpin).mono (le_max_left _ _)
  link a b hlink := by
    by_cases ha : (accepted s seeds).value a ≤ .arr
    · refine Store.meets_of_le ?_
      show max ((accepted s seeds).value a) .arr ≤ max ((accepted s seeds).value b) .arr
      rw [max_eq_right ha]
      exact le_max_right _ _
    · have harr : .arr ≤ (accepted s seeds).value a := le_of_lt (not_le.1 ha)
      show s.Meets _ b (max ((accepted s seeds).value a) .arr)
      rw [max_eq_left harr]
      exact (accepted_meets_link hs h hlink fun e => ha (le_of_eq e)).mono (le_max_left _ _)

theorem start_le_accepted (hs : s.Ruled) (h : Primed s seeds) (x : AtomKey) :
    s.value x ≤ (accepted s seeds).value x :=
  (accepted_sound hs h).start x

/-- Where every flow of plain arrays is met, the accepted kinds are a solution. -/
theorem closed_accepted (hs : s.Ruled) (h : Primed s seeds)
    (hmet : ∀ a b, s.InForce (.flow a b .arr) → (accepted s seeds).value a = .arr →
      .flow a b .arr ∈ (s.solution seeds).blocked → s.Meets (accepted s seeds).value b .arr) :
    s.Closed (accepted s seeds).value where
  pin x k hpin := (accepted_atRest hs h).meets_pinned hs (accepted_sound hs h) hpin
  link a b hlink := by
    by_cases ha : (accepted s seeds).value a = .arr
    · by_cases hblocked : .flow a b .arr ∈ (s.solution seeds).blocked
      · obtain ⟨-, -, -, -, hforce, -⟩ := mem_blocked hs h hblocked
        rw [ha]
        exact hmet a b hforce ha hblocked
      · exact (accepted_atRest hs h).meets_link hs (accepted_sound hs h) hlink fun _ => by rwa [ha]
    · exact accepted_meets_link hs h hlink ha

/-! ### Without preferences -/

/-- Where nobody has preferences, nobody is promoted. -/
theorem promotions_eq_nil (hsoft : ∀ key a, s.atoms.get? key = some a → a.soft = {}) (run : Run) :
    run.promotions s = [] := by
  have hwants : ∀ key, wantsPromotion s key = false := by
    intro key
    unfold wantsPromotion
    cases ha : s.atoms.get? key with
    | none => rfl
    | some a => simp [hsoft key a ha, SoftPreferences.wantsNtArr]
  refine List.eq_nil_iff_forall_not_mem.2 fun key hkey => ?_
  obtain ⟨-, hany, -⟩ := mem_promotions hkey
  obtain ⟨p, -, hp⟩ := List.any_eq_true.1 hany
  rw [hwants p] at hp
  exact absurd hp (by decide)

/-- Without preferences the accepted kinds are the least solution above the start. -/
theorem accepted_least (hs : s.Ruled) (h : Primed s seeds)
    (hsoft : ∀ key a, s.atoms.get? key = some a → a.soft = {}) :
    s.Closed (accepted s seeds).value ∧
      ∀ E, s.Closed E → (∀ x, s.value x ≤ E x) → ∀ x, (accepted s seeds).value x ≤ E x := by
  have hround : ∀ E, s.Closed E → (∀ x, s.value x ≤ E x) → ∀ B x, (round s seeds B).value x ≤ E x := by
    intro E hE hstart B
    refine round_le_closed hs h hE hstart B ?_
    rw [promotions_eq_nil hsoft]
    exact fun x hx => absurd hx List.not_mem_nil
  refine ⟨closed_accepted hs h fun a b hforce ha hblocked => ?_, fun E hE hstart => hround E hE hstart _⟩
  obtain ⟨a', b', B, he, -, hle⟩ := mem_blocked hs h hblocked
  obtain ⟨rfl, -⟩ : a = a' ∧ b = b' := by simpa using he
  have hcap := hround _ (closed_accepted_max_arr hs h)
    (fun x => le_trans (start_le_accepted hs h x) (le_max_left _ _)) B a
  rw [ha, max_self] at hcap
  exact absurd (le_trans hle hcap) (by decide)

end Run

namespace Store

variable {s t : Store} {E : AtomKey → Kind}

/-! ### The least solution -/

/-- The store with other starting kinds. -/
def startingFrom (s : Store) (env : SortedMap AtomKey Kind) : Store := { s with env }

/-- Nobody has preferences. -/
def Indifferent (s : Store) : Prop := ∀ key a, s.atoms.get? key = some a → a.soft = {}

/-- Everything in force is a rule, and flows come in triples, one for each kind above a
checked pointer to one object. -/
structure Plain (s : Store) : Prop where
  rule : ∀ f, s.InForce f → f.IsRule
  triple : ∀ a b k, k = .arr ∨ k = .ntArr → s.InForce (.flow a b k) →
    s.InForce (.flow a b .arr) ∧ s.InForce (.flow a b .ntArr) ∧ s.InForce (.flow a b .wild)

/-- An environment meets every demand in force, up to what the filters let pass. -/
structure Solves (s : Store) (E : AtomKey → Kind) : Prop where
  pin : ∀ x k, s.InForce (.pin x k) → s.Meets E x k
  join : ∀ a b, s.InForce (.join a b) → s.Meets E a (E b) ∧ s.Meets E b (E a)
  flow : ∀ a b, s.InForce (.flow a b .arr) → s.InForce (.flow a b .ntArr) →
    s.InForce (.flow a b .wild) → s.Meets E b (E a)
  guardedPin : ∀ x a k, s.InForce (.guarded x (.pin a k)) → E x = .wild → s.Meets E a k
  guardedJoin : ∀ x a b, s.InForce (.guarded x (.join a b)) → E x = .wild →
    s.Meets E a (E b) ∧ s.Meets E b (E a)

theorem Plain.ruled (h : s.Plain) (hs : s.Indexed) : s.Ruled where
  indexed := hs
  rule := h.rule
  paired a b := ⟨fun hf => (h.triple a b _ (.inl rfl) hf).2.1, fun hf => (h.triple a b _ (.inr rfl) hf).1⟩

/-- A solution contains whatever ends up unchecked. -/
theorem Solves.eq_wild (hE : s.Solves E) (hstart : ∀ x, s.value x ≤ E x) {x : AtomKey}
    (h : s.Unchecked x) : E x = .wild := by
  induction h with
  | start h => exact le_antisymm (Kind.le_wild _) (h ▸ hstart _)
  | pin hf hp => exact le_antisymm (Kind.le_wild _) ((hE.pin _ _ hf).le hp)
  | join hf hp _ ih => exact le_antisymm (Kind.le_wild _) ((ih ▸ (hE.join _ _ hf).2).le hp)
  | joinBack hf hp _ ih => exact le_antisymm (Kind.le_wild _) ((ih ▸ (hE.join _ _ hf).1).le hp)
  | guardedPin hf hp _ ihx => exact le_antisymm (Kind.le_wild _) ((hE.guardedPin _ _ _ hf ihx).le hp)
  | guardedJoin hf hp _ _ ihx ih =>
      exact le_antisymm (Kind.le_wild _) ((ih ▸ (hE.guardedJoin _ _ _ hf ihx).2).le hp)
  | guardedJoinBack hf hp _ _ ihx ih =>
      exact le_antisymm (Kind.le_wild _) ((ih ▸ (hE.guardedJoin _ _ _ hf ihx).1).le hp)

theorem Solves.closed (h : s.Plain) (hE : s.Solves E) (hstart : ∀ x, s.value x ≤ E x) : s.Closed E where
  pin x k hpin := by
    cases hpin with
    | pin hf => exact hE.pin x k hf
    | guarded hf hx => exact hE.guardedPin _ x k hf (hE.eq_wild hstart hx)
  link a b hlink := by
    cases hlink with
    | join hf => exact (hE.join a b hf).2
    | joinBack hf => exact (hE.join b a hf).1
    | guarded hf hx => exact (hE.guardedJoin _ a b hf (hE.eq_wild hstart hx)).2
    | guardedBack hf hx => exact (hE.guardedJoin _ b a hf (hE.eq_wild hstart hx)).1
    | flow hf _ =>
        obtain ⟨harr, hntArr, hwild⟩ := h.triple a b _ (.inl rfl) hf
        exact hE.flow a b harr hntArr hwild

/-- Of environments with exactly the atoms unchecked that have to be, the closed ones are
solutions. -/
theorem Closed.solves (hE : s.Closed E) (hwild : ∀ x, E x = .wild ↔ s.Unchecked x) : s.Solves E where
  pin x k hf := hE.pin x k (.pin hf)
  join a b hf := ⟨hE.link b a (.joinBack hf), hE.link a b (.join hf)⟩
  flow a b harr hntArr hw := by
    by_cases ha : s.Unchecked a
    · rw [(hwild a).2 ha]
      exact hE.pin b .wild (.guarded hw ha)
    · exact hE.link a b (.flow harr ha)
  guardedPin x a k hf hx := hE.pin a k (.guarded hf ((hwild x).1 hx))
  guardedJoin x a b hf hx :=
    ⟨hE.link b a (.guardedBack hf ((hwild x).1 hx)), hE.link a b (.guarded hf ((hwild x).1 hx))⟩

/-- The kinds a store has after it was solved are those of the accepted round. -/
theorem value_solve (hs : s.Indexed) (x : AtomKey) :
    s.solve.2.value x = (Run.accepted s s.atoms.keys).value x := by
  unfold Run.accepted
  rw [← (solution_spec hs (primed_keys hs)).1]
  rfl

/-- The demands of a store depend on what is in force and on the filters alone. -/
theorem Solves.congr (hE : s.Solves E) (hforce : ∀ f, t.InForce f ↔ s.InForce f)
    (hfilter : s.SameFilters t) : t.Solves E := by
  refine ⟨fun x k hf => ?_, fun a b hf => ?_, fun a b h₁ h₂ h₃ => ?_, fun x a k hf hx => ?_,
    fun x a b hf hx => ?_⟩
  · exact (hE.pin x k ((hforce _).1 hf)).congr hfilter
  · exact (hE.join a b ((hforce _).1 hf)).imp (·.congr hfilter) (·.congr hfilter)
  · exact (hE.flow a b ((hforce _).1 h₁) ((hforce _).1 h₂) ((hforce _).1 h₃)).congr hfilter
  · exact (hE.guardedPin x a k ((hforce _).1 hf) hx).congr hfilter
  · exact (hE.guardedJoin x a b ((hforce _).1 hf) hx).imp (·.congr hfilter) (·.congr hfilter)

theorem isLeast_solve_of_indexed (hs : s.Indexed) (hplain : s.Plain) (hsoft : s.Indifferent) :
    IsLeast {E | (∀ x, s.value x ≤ E x) ∧ s.Solves E} s.solve.2.value := by
  have hruled := hplain.ruled hs
  have hprimed := primed_keys hs
  have hvalue : s.solve.2.value = (Run.accepted s s.atoms.keys).value := funext (value_solve hs)
  obtain ⟨hclosed, hleast⟩ := Run.accepted_least hruled hprimed hsoft
  rw [hvalue]
  constructor
  · exact ⟨Run.start_le_accepted hruled hprimed,
      hclosed.solves fun x => Run.value_round_eq_wild hruled hprimed _⟩
  · rintro E ⟨hstart, hE⟩
    exact hleast E (hE.closed hplain hstart) hstart

/-- **Solving finds the least solution.**  From whatever kinds the atoms start with, the
kinds found are the least that meet every demand in force, read up to the filters; so
they depend on what is in force and on the filters, and on nothing else in the store. -/
theorem isLeast_solve (hs : s.Built) (hplain : s.Plain) (hsoft : s.Indifferent)
    (env : SortedMap AtomKey Kind) :
    IsLeast {E | (∀ x, env.getD x .ptr ≤ E x) ∧ s.Solves E} (s.startingFrom env).solve.2.value ∧
      ∀ t : Store, t.Built → t.Indifferent → (∀ f, t.InForce f ↔ s.InForce f) → s.SameFilters t →
        (t.startingFrom env).solve.2.value = (s.startingFrom env).solve.2.value := by
  have hleast : ∀ t : Store, t.Built → t.Plain → t.Indifferent →
      IsLeast {E | (∀ x, env.getD x .ptr ≤ E x) ∧ t.Solves E} (t.startingFrom env).solve.2.value := by
    intro t ht hplain hsoft
    have hindexed : (t.startingFrom env).Indexed := ht.indexed.of_eq rfl rfl rfl rfl
    obtain ⟨⟨hstart, hE⟩, hmin⟩ :=
      isLeast_solve_of_indexed hindexed ⟨hplain.rule, hplain.triple⟩ hsoft
    refine ⟨⟨hstart, hE.congr (fun _ => Iff.rfl) fun _ => rfl⟩, ?_⟩
    rintro E ⟨hE₁, hE₂⟩
    exact hmin ⟨hE₁, hE₂.congr (fun _ => Iff.rfl) fun _ => rfl⟩
  refine ⟨hleast s hs hplain hsoft, fun t ht htsoft hforce hfilter => ?_⟩
  have htplain : t.Plain := by
    refine ⟨fun f hf => hplain.rule f ((hforce f).1 hf), fun a b k hk hf => ?_⟩
    obtain ⟨h₁, h₂, h₃⟩ := hplain.triple a b k hk ((hforce _).1 hf)
    exact ⟨(hforce _).2 h₁, (hforce _).2 h₂, (hforce _).2 h₃⟩
  have hsame : {E | (∀ x, env.getD x .ptr ≤ E x) ∧ t.Solves E} =
      {E | (∀ x, env.getD x .ptr ≤ E x) ∧ s.Solves E} := by
    refine Set.ext fun E => and_congr_right fun _ => ⟨fun hE => ?_, fun hE => hE.congr hforce hfilter⟩
    exact hE.congr (fun f => (hforce f).symm) hfilter.symm
  exact (hsame ▸ hleast t ht htplain htsoft).unique (hleast s hs hplain hsoft)

/-! ### A concrete store -/

/-- A null-terminated array flows on, and an atom that may not be unchecked is asked to be. -/
def relay : Store :=
  let s : Store := ((({} : Store).addFlow 0 1 .arr).addFlow 0 1 .ntArr).addFlow 0 1 .wild
  let s := ((s.ensureAtom 2).forbid 2 .wild).addFlow 3 2 .wild
  let s := (s.addEq (.atom 0) (.kind .ntArr)).2
  let s := (s.addEq (.atom 1) (.atom 2)).2
  (s.addEq (.atom 3) (.kind .wild)).2

theorem relay_built : relay.Built :=
  ((((((((Built.empty.addFlow 0 1 .arr).addFlow 0 1 .ntArr).addFlow 0 1 .wild).ensureAtom 2).forbid 2
    .wild).addFlow 3 2 .wild).addEq _ _ _).addEq _ _ _).addEq _ _ _

theorem inForce_relay {f : Formula} : relay.InForce f ↔ f = .flow 0 1 .arr ∨ f = .pin 0 .ntArr ∨
    f = .flow 0 1 .ntArr ∨ f = .flow 0 1 .wild ∨ f = .pin 3 .wild ∨ f = .flow 3 2 .wild ∨
    f = .join 1 2 := by
  have hlist : relay.activeFormulas = [(2, .flow 0 1 .arr), (3, .pin 0 .ntArr), (5, .flow 0 1 .ntArr),
    (8, .flow 0 1 .wild), (9, .pin 3 .wild), (11, .flow 3 2 .wild), (12, .join 1 2)] := by decide
  unfold InForce
  rw [hlist]
  simp [exists_or]

theorem relay_plain : relay.Plain := by
  refine ⟨fun f hf => ?_, fun a b k hk hf => ?_⟩
  · rcases inForce_relay.1 hf with rfl | rfl | rfl | rfl | rfl | rfl | rfl
    · exact .flow 0 1 (.inl rfl)
    · exact .pin 0 .ntArr
    · exact .flow 0 1 (.inr rfl)
    · exact .guardedPin 0 1 .wild
    · exact .pin 3 .wild
    · exact .guardedPin 3 2 .wild
    · exact .join 1 2
  · rcases hk with rfl | rfl <;> simp_all [inForce_relay]

theorem relay_indifferent : relay.Indifferent := by
  have hall : relay.atoms.entries.all (fun e => e.2.soft = {}) = true := by decide
  intro key a ha
  have := List.all_eq_true.1 hall (key, a) ((SortedMap.mem_entries_iff relay.atoms key a).2 ha)
  simpa using this

/-- The least solution of a concrete store: what may not be unchecked is as high as it may be. -/
theorem relay_least : (relay.startingFrom ∅).solve.2.value 2 = .ntArr ∧
    IsLeast {E | (∀ x, (∅ : SortedMap AtomKey Kind).getD x .ptr ≤ E x) ∧ relay.Solves E}
      (relay.startingFrom ∅).solve.2.value :=
  ⟨by decide, (isLeast_solve relay_built relay_plain relay_indifferent ∅).1⟩

end Store

end PointerKinds
