/-
Rules: the shapes of formula that whole programs are made of.

A rule pins an atom to a kind, joins two atoms, bars an atom from a kind, demands one of
the first two once some atom is unchecked, or lets a kind flow from one atom to another.
A flow of plain arrays comes with a flow of null-terminated ones.

Which atoms end up unchecked is settled before anything is fired: unchecked atoms only
come from unchecked atoms and from pins, along rules whose premise is final.  `Unchecked`
is that set, without a run in sight.  Once it is known, every rule is either a pin or a
link that lets one atom push another up, and what a run does is to follow pins and links.
-/
import PointerKinds.Proofs.Solver.Rounds

namespace PointerKinds

namespace Formula

/-! ### Shapes -/

/-- An atom is at least a kind. -/
abbrev pin (x : AtomKey) (k : Kind) : Formula := .eq (.atom x) (.kind k)

/-- Two atoms agree. -/
abbrev join (a b : AtomKey) : Formula := .eq (.atom a) (.atom b)

/-- An atom does not have a kind. -/
abbrev bar (x : AtomKey) (k : Kind) : Formula := .not (pin x k)

/-- Once an atom is unchecked, something is demanded. -/
abbrev guarded (x : AtomKey) (f : Formula) : Formula := .implies (pin x .wild) f

/-- A kind flows from one atom to another. -/
abbrev flow (a b : AtomKey) (k : Kind) : Formula := .implies (pin a k) (pin b k)

/-- The shapes of formula that the theorems below are about. -/
inductive IsRule : Formula → Prop
  | pin (x : AtomKey) (k : Kind) : IsRule (pin x k)
  | join (a b : AtomKey) : IsRule (join a b)
  | bar (x : AtomKey) (k : Kind) : IsRule (bar x k)
  | guardedPin (x a : AtomKey) (k : Kind) : IsRule (guarded x (.pin a k))
  | guardedJoin (x a b : AtomKey) : IsRule (guarded x (.join a b))
  | flow (a b : AtomKey) {k : Kind} (hk : k = .arr ∨ k = .ntArr) : IsRule (flow a b k)

theorem IsRule.isFlat {f : Formula} (h : f.IsRule) : f.IsFlat := by
  cases h <;> exact trivial

end Formula

namespace Store

variable {s : Store} {x a b : AtomKey} {k : Kind}

/-- Everything in force is a rule, and flows come in pairs. -/
structure Ruled (s : Store) : Prop where
  indexed : s.Indexed
  rule : ∀ f, s.InForce f → f.IsRule
  paired : ∀ a b, s.InForce (.flow a b .arr) ↔ s.InForce (.flow a b .ntArr)

/-! ### The atoms that end up unchecked -/

/-- The least set of atoms that are unchecked from the start or made so by a rule. -/
inductive Unchecked (s : Store) : AtomKey → Prop
  | start {x : AtomKey} (h : s.value x = .wild) : Unchecked s x
  | pin {x : AtomKey} (hf : s.InForce (.pin x .wild)) (hp : s.Permits x .wild) : Unchecked s x
  | join {a b : AtomKey} (hf : s.InForce (.join a b)) (hp : s.Permits b .wild) (h : Unchecked s a) :
      Unchecked s b
  | joinBack {a b : AtomKey} (hf : s.InForce (.join a b)) (hp : s.Permits a .wild)
      (h : Unchecked s b) : Unchecked s a
  | guardedPin {x a : AtomKey} (hf : s.InForce (.guarded x (.pin a .wild))) (hp : s.Permits a .wild)
      (hx : Unchecked s x) : Unchecked s a
  | guardedJoin {x a b : AtomKey} (hf : s.InForce (.guarded x (.join a b))) (hp : s.Permits b .wild)
      (hx : Unchecked s x) (h : Unchecked s a) : Unchecked s b
  | guardedJoinBack {x a b : AtomKey} (hf : s.InForce (.guarded x (.join a b)))
      (hp : s.Permits a .wild) (hx : Unchecked s x) (h : Unchecked s b) : Unchecked s a

/-! ### Pins and links -/

/-- A rule pins an atom to a kind, given which atoms end up unchecked. -/
inductive Pinned (s : Store) : AtomKey → Kind → Prop
  | pin {x : AtomKey} {k : Kind} (hf : s.InForce (.pin x k)) : Pinned s x k
  | guarded {x a : AtomKey} {k : Kind} (hf : s.InForce (.guarded x (.pin a k)))
      (hx : s.Unchecked x) : Pinned s a k

/-- A rule lets the first atom push the second up, given which atoms end up unchecked. -/
inductive Link (s : Store) : AtomKey → AtomKey → Prop
  | join {a b : AtomKey} (hf : s.InForce (.join a b)) : Link s a b
  | joinBack {a b : AtomKey} (hf : s.InForce (.join a b)) : Link s b a
  | guarded {x a b : AtomKey} (hf : s.InForce (.guarded x (.join a b))) (hx : s.Unchecked x) :
      Link s a b
  | guardedBack {x a b : AtomKey} (hf : s.InForce (.guarded x (.join a b))) (hx : s.Unchecked x) :
      Link s b a
  | flow {a b : AtomKey} (hf : s.InForce (.flow a b .arr)) (ha : ¬ s.Unchecked a) : Link s a b

/-- An environment yields to every pin and every link. -/
structure Closed (s : Store) (E : AtomKey → Kind) : Prop where
  pin : ∀ x k, s.Pinned x k → s.Meets E x k
  link : ∀ a b, s.Link a b → s.Meets E b (E a)

variable {t : Store} {E : AtomKey → Kind}

/-- Which atoms end up unchecked depends on the start, on what is in force and on the filters. -/
theorem Unchecked.transfer (h : s.Unchecked x) (hvalue : ∀ y, s.value y = .wild → t.value y = .wild)
    (hforce : ∀ f, s.InForce f → t.InForce f) (hfilter : s.SameFilters t) : t.Unchecked x := by
  induction h with
  | start h => exact .start (hvalue _ h)
  | pin hf hp => exact .pin (hforce _ hf) (hp.congr hfilter)
  | join hf hp _ ih => exact .join (hforce _ hf) (hp.congr hfilter) ih
  | joinBack hf hp _ ih => exact .joinBack (hforce _ hf) (hp.congr hfilter) ih
  | guardedPin hf hp _ ih => exact .guardedPin (hforce _ hf) (hp.congr hfilter) ih
  | guardedJoin hf hp _ _ ihx ih => exact .guardedJoin (hforce _ hf) (hp.congr hfilter) ihx ih
  | guardedJoinBack hf hp _ _ ihx ih => exact .guardedJoinBack (hforce _ hf) (hp.congr hfilter) ihx ih

/-- What an environment has to yield to is the same where the same is in force and the same
atoms end up unchecked. -/
theorem Closed.congr (h : s.Closed E) (hforce : ∀ f, t.InForce f → s.InForce f)
    (hunchecked : ∀ x, t.Unchecked x ↔ s.Unchecked x) (hfilter : s.SameFilters t) : t.Closed E where
  pin x k hpin := by
    refine (h.pin x k ?_).congr hfilter
    cases hpin with
    | pin hf => exact .pin (hforce _ hf)
    | guarded hf hx => exact .guarded (hforce _ hf) ((hunchecked _).1 hx)
  link a b hlink := by
    refine (h.link a b ?_).congr hfilter
    cases hlink with
    | join hf => exact .join (hforce _ hf)
    | joinBack hf => exact .joinBack (hforce _ hf)
    | guarded hf hx => exact .guarded (hforce _ hf) ((hunchecked _).1 hx)
    | guardedBack hf hx => exact .guardedBack (hforce _ hf) ((hunchecked _).1 hx)
    | flow hf ha => exact .flow (hforce _ hf) fun hun => ha ((hunchecked _).2 hun)

end Store

namespace Run

variable {s : Store} {run run' : Run} {blocked : List Formula} {f : Formula}
  {x a b : AtomKey} {k : Kind} {E : AtomKey → Kind}

/-! ### What a run knows about unchecked atoms -/

/-- No atom is unchecked in a run without ending up so, and the run commits itself to
flows only, out of atoms that do not. -/
structure Sound (s : Store) (run : Run) : Prop where
  wild : ∀ x, run.value x = .wild → s.Unchecked x
  fired : ∀ f ∈ run.fired, ∃ a b k, (k = .arr ∨ k = .ntArr) ∧ f = .flow a b k ∧ ¬ s.Unchecked a
  start : ∀ x, s.value x ≤ run.value x

/-- Where everything is settled, all atoms that end up unchecked are so. -/
theorem Calm.value_eq_wild (hrule : ∀ f, s.InForce f → f.IsRule) (hcalm : Calm s run)
    (hstart : ∀ x, s.value x ≤ run.value x) (h : s.Unchecked x) : run.value x = .wild := by
  have hmet : ∀ {f : Formula} {y : AtomKey} {k : Kind}, s.InForce f → run.Asks f y k →
      s.Permits y .wild → k = .wild → run.value y = .wild := by
    rintro f y k ⟨id, hf⟩ hask hp rfl
    have hmeets := hcalm (id, f) hf (hrule f ⟨id, hf⟩).isFlat y .wild hask
    exact le_antisymm (Kind.le_wild _) (hmeets.le hp)
  have hlive : ∀ {y : AtomKey} {c : Formula}, run.value y = .wild →
      run.isLive (.guarded y c) (.pin y .wild) = true := by
    intro y c hy
    have : (Formula.pin y .wild).truth run.value = .yes := Formula.truth_atomKind_eq_yes.2 hy
    simp [isLive, Formula.isFinal, this]
  have hjoin : ∀ {a b : AtomKey}, run.value a = .wild → run.value b ≠ .wild →
      run.Asks (.join a b) b (run.value a) ∧ run.Asks (.join b a) b (run.value a) := by
    intro a b ha hb
    have hlt : run.value b < run.value a := by
      rw [ha]
      exact lt_of_le_of_ne (Kind.le_wild _) hb
    exact ⟨.right (not_lt.2 (le_of_lt hlt)), .left hlt⟩
  induction h with
  | start h => exact le_antisymm (Kind.le_wild _) (h ▸ hstart _)
  | pin hf hp => exact hmet hf (.pin _ _) hp rfl
  | join hf hp _ ih =>
      by_contra hb
      exact hb (hmet hf (hjoin ih hb).1 hp ih)
  | joinBack hf hp _ ih =>
      by_contra hb
      exact hb (hmet hf (hjoin ih hb).2 hp ih)
  | guardedPin hf hp _ ihx => exact hmet hf (.passed (hlive ihx) (.pin _ _)) hp rfl
  | guardedJoin hf hp _ _ ihx ih =>
      by_contra hb
      exact hb (hmet hf (.passed (hlive ihx) (hjoin ih hb).1) hp ih)
  | guardedJoinBack hf hp _ _ ihx ih =>
      by_contra hb
      exact hb (hmet hf (.passed (hlive ihx) (hjoin ih hb).2) hp ih)

theorem isLive_pin {c : Formula} :
    run.isLive (.implies (.pin x k) c) (.pin x k) = true ↔
      (k = .wild ∨ .implies (.pin x k) c ∈ run.fired) ∧ run.value x = k := by
  unfold isLive
  rw [Bool.and_eq_true, Bool.or_eq_true, decide_eq_true_eq, Formula.truth_atomKind_eq_yes,
    List.contains_iff_mem]
  exact and_congr_left fun _ => or_congr_left (by simp [Formula.isFinal])

/-- A request goes along a pin or a link. -/
theorem Sound.asks (hs : s.Ruled) (h : Sound s run) (hf : s.InForce f) (hask : run.Asks f x k) :
    s.Pinned x k ∨ ∃ a, s.Link a x ∧ k = run.value a := by
  have hjoin : ∀ {a b : AtomKey}, run.Asks (.join a b) x k → s.Link a b → s.Link b a →
      s.Pinned x k ∨ ∃ a, s.Link a x ∧ k = run.value a := by
    intro a b hask hab hba
    cases hask with
    | left => exact .inr ⟨b, hba, rfl⟩
    | right => exact .inr ⟨a, hab, rfl⟩
  have hguard : ∀ {y : AtomKey} {c : Formula}, run.Asks (.guarded y c) x k →
      s.Unchecked y ∧ run.Asks c x k := by
    intro y c hask
    cases hask with
    | passed hlive hask => exact ⟨h.wild y (isLive_pin.1 hlive).2, hask⟩
  cases hs.rule f hf with
  | pin y k' =>
      cases hask with
      | pin => exact .inl (.pin hf)
  | join a b => exact hjoin hask (.join hf) (.joinBack hf)
  | bar y k' => cases hask
  | guardedPin y a k' =>
      obtain ⟨hy, hask⟩ := hguard hask
      cases hask with
      | pin => exact .inl (.guarded hf hy)
  | guardedJoin y a b =>
      obtain ⟨hy, hask⟩ := hguard hask
      exact hjoin hask (.guarded hf hy) (.guardedBack hf hy)
  | @flow a b k' hk =>
      cases hask with
      | passed hlive hask =>
          obtain ⟨hfired, hval⟩ := isLive_pin.1 hlive
          have hk' : k' ≠ .wild := by rcases hk with rfl | rfl <;> decide
          obtain ⟨a', b', k'', -, he, ha⟩ := h.fired _ (hfired.resolve_left hk')
          obtain ⟨⟨rfl, rfl⟩, rfl, -⟩ : (a = a' ∧ k' = k'') ∧ b = b' ∧ k' = k'' := by simpa using he
          have hforce : s.InForce (.flow a b .arr) := by
            rcases hk with rfl | rfl
            · exact hf
            · exact (hs.paired a b).2 hf
          cases hask with
          | pin => exact .inr ⟨a, .flow hforce ha, hval.symm⟩

/-- Where an atom is unchecked after a request, it was asked to be. -/
theorem value_raise_eq_wild {id : ConstraintId} {y : AtomKey}
    (h : (run.raise s id x k).2.value y = .wild) :
    run.value y = .wild ∨ y = x ∧ k = .wild ∧ s.Permits x .wild := by
  by_cases hy : y = x
  · subst hy
    rcases raise_cases s id run y k with ⟨e, -⟩ | ⟨a, -, -, -, e⟩ | ⟨a, g, run', ha, hg, -, -, e⟩
    · rw [e] at h
      exact .inl h
    · rw [e] at h
      exact .inl h
    · rw [e, value_count, value_assign, if_pos rfl] at h
      subst h
      have hk : k = .wild := le_antisymm (Kind.le_wild k) (Atom.floor?_le hg)
      exact .inr ⟨rfl, hk, a, ha, Atom.permits_floor? hg⟩
  · rw [value_raise_of_ne s id run k hy] at h
    exact .inl h

theorem Sound.act (hs : s.Ruled) (h : Sound s run) (hact : Act s blocked run run') : Sound s run' := by
  have hstart : ∀ x, s.value x ≤ run'.value x := fun x => le_trans (h.start x) (hact.le_value x)
  cases hact with
  | visit => exact ⟨h.wild, h.fired, hstart⟩
  | raise hf hask =>
      refine ⟨fun y hy => ?_, fun f hf => h.fired f (by rwa [fired_raise] at hf), hstart⟩
      rcases value_raise_eq_wild hy with hy | ⟨rfl, rfl, hp⟩
      · exact h.wild y hy
      · rcases h.asks hs ⟨_, hf⟩ hask with hpin | ⟨a, hlink, ha⟩
        · cases hpin with
          | pin hf => exact .pin hf hp
          | guarded hf hx => exact .guardedPin hf hp hx
        · have hwild := h.wild a ha.symm
          cases hlink with
          | join hf => exact .join hf hp hwild
          | joinBack hf => exact .joinBack hf hp hwild
          | guarded hf hx => exact .guardedJoin hf hp hx hwild
          | guardedBack hf hx => exact .guardedJoinBack hf hp hx hwild
          | flow hf hnot => exact absurd hwild hnot
  | fire hf hwait hcalm =>
      refine ⟨h.wild, fun g hg => ?_, hstart⟩
      rcases mem_fired_commitTo.1 hg with hg | rfl
      · exact h.fired g hg
      obtain ⟨p, c, rfl, hfinal, -, -, htruth, -⟩ := isWaiting_iff.1 hwait
      cases hs.rule _ ⟨_, hf⟩ with
      | guardedPin | guardedJoin => exact absurd hfinal (by simp [Formula.isFinal])
      | @flow a b k hk =>
          refine ⟨a, b, k, hk, rfl, fun hun => ?_⟩
          have hwild := hcalm.value_eq_wild hs.rule h.start hun
          rw [Formula.truth_atomKind_eq_yes.1 htruth] at hwild
          rcases hk with rfl | rfl <;> exact absurd hwild (by decide)

theorem Sound.promote (h : Sound s run) : Sound s (run.promote (run.promotions s)) := by
  refine ⟨fun x hx => ?_, ?_, fun x => le_trans (h.start x) (le_value_promotions run x)⟩
  · rw [value_promote] at hx
    split at hx
    · exact absurd hx (by decide)
    · exact h.wild x hx
  · rw [fired_promote]
    exact h.fired

theorem sound_start (s : Store) : Sound s (Run.start s) where
  wild _ hx := .start hx
  fired _ hf := absurd hf List.not_mem_nil
  start _ := le_refl _

variable {seeds : List AtomKey}

theorem sound_hard (hs : s.Ruled) (h : Primed s seeds) (blocked : List Formula) :
    Sound s (hard s seeds blocked) :=
  (hard_spec hs.indexed h blocked).1.keeps (fun _ _ hact hr => hr.act hs hact) (sound_start s)

theorem sound_round (hs : s.Ruled) (h : Primed s seeds) (blocked : List Formula) :
    Sound s (round s seeds blocked) :=
  round_keeps hs.indexed h blocked (sound_start s) (fun _ _ hact hr => hr.act hs hact)
    (fun _ hr => hr.promote)

/-- The unchecked atoms of a round are known before it is run. -/
theorem value_round_eq_wild (hs : s.Ruled) (h : Primed s seeds) (blocked : List Formula) :
    (round s seeds blocked).value x = .wild ↔ s.Unchecked x :=
  ⟨(sound_round hs h blocked).wild x,
    (round_spec hs.indexed h blocked).2.calm.value_eq_wild hs.rule (sound_round hs h blocked).start⟩

/-! ### Only flows of plain arrays go stale -/

theorem mem_stale_round (hs : s.Ruled) (h : Primed s seeds) {B : List Formula}
    (hf : f ∈ (round s seeds B).stale) :
    ∃ a b, f = .flow a b .arr ∧ s.InForce f ∧ .ntArr ≤ (round s seeds B).value a := by
  obtain ⟨hfired, p, c, he, htruth⟩ := mem_stale.1 hf
  have hsound := sound_round hs h B
  have hcommitted := committed_round hs.indexed h B
  obtain ⟨a, b, k, hk, rfl, ha⟩ := hsound.fired f hfired
  obtain ⟨rfl, -⟩ := Formula.implies.inj he
  have hne : (round s seeds B).value a ≠ k := fun e => htruth (Formula.truth_atomKind_eq_yes.2 e)
  have hlt : k < (round s seeds B).value a :=
    lt_of_le_of_ne (hcommitted.reached _ hfired a k _ rfl) (Ne.symm hne)
  rcases hk with rfl | rfl
  · exact ⟨a, b, rfl, hcommitted.inForce _ hfired, Kind.ntArr_le_of_arr_lt hlt⟩
  · exact absurd (hsound.wild a (Kind.eq_wild_of_ntArr_lt hlt)) ha

/-- A flow that was not blocked is met once the run is at rest. -/
theorem AtRest.meets_flow (h : AtRest s blocked run) (hf : s.InForce (.flow a b k)) (hk : k ≠ .wild)
    (hopen : .flow a b k ∉ blocked) (ha : run.value a = k) : s.Meets run.value b k := by
  by_cases hfired : .flow a b k ∈ run.fired
  · obtain ⟨id, hid⟩ := hf
    exact h.calm (id, _) hid trivial b k (.passed (isLive_pin.2 ⟨.inr hfired, ha⟩) (.pin b k))
  · have hidle := h.idle _ hf
    rw [← Bool.not_eq_true, isWaiting_iff] at hidle
    by_contra hnot
    refine hidle ⟨.pin a k, .pin b k, rfl, ?_, hfired, hopen, Formula.truth_atomKind_eq_yes.2 ha, ?_⟩
    · simpa [Formula.isFinal] using hk
    · simp only [Formula.holds, Formula.equalityHolds, decide_eq_false_iff_not]
      exact fun hle => hnot (Store.meets_of_le hle)

end Run

end PointerKinds
