/-
Solving again.

A solved store has nothing left to do, as far as the constraints go.  What a constraint asks
for without having been fired it gets in full, and no implication waits; so when the store is
solved once more at once, every visit leaves everything alone, and nothing is fired.

The preferences are another matter.  They are looked at once in each round, after everything
is settled, and the promotions are then settled without another look.  An atom that becomes a
plain array only through that is not promoted, and would be when the store is solved again.
Every atom that is promoted then is of this sort.  For one that was a plain array before the
preferences were looked at has the same component as it had then: nothing was refused, so
atoms that are joined have the same kind, before and after, and the walk from a plain array
meets the same atoms in the same order.

All this is about what the atoms have on record, which may be more than what is in force, and
about formulas however deep implications stand inside them.  Hence requests are looked at as
they are before anything is fired.  Such a request depends on the kinds alone.
-/
import PointerKinds.Proofs.Store.Operations
import PointerKinds.Proofs.Solver.Least
import PointerKinds.Proofs.Solver.Replay
import PointerKinds.Proofs.Solver.Verdict

namespace PointerKinds

namespace Run

variable {s : Store} {run run' : Run} {f g : Formula} {id : ConstraintId} {key x : AtomKey} {k : Kind}
  {queue seeds : List AtomKey} {blocked : List Formula} {c : ConstraintId × Formula}
  {rest : List (ConstraintId × Formula)}

/-! ### Requests that need no firing -/

/-- The same run, committed to nothing. -/
def uncommitted (run : Run) : Run := { run with fired := [] }

theorem uncommitted_of_fired (h : run.fired = []) : run.uncommitted = run := by
  unfold uncommitted
  rw [← h]

/-- What a formula asks for before anything is fired depends on the kinds of its atoms alone. -/
theorem Asks.congr_uncommitted (hval : ∀ x ∈ f.mentions, run'.value x = run.value x)
    (h : run'.uncommitted.Asks f key k) : run.uncommitted.Asks f key k := by
  have hvalue : ∀ r : Run, r.uncommitted.value = r.value := fun _ => rfl
  induction h with
  | pin key k => exact .pin key k
  | pinned key k => exact .pinned key k
  | @left a b hlt =>
      rw [hvalue] at hlt ⊢
      have ha := hval a (by simp [Formula.mentions, Operand.key?])
      have hb := hval b (by simp [Formula.mentions, Operand.key?])
      rw [hb]
      exact .left (show run.value a < run.value b by rwa [← ha, ← hb])
  | @right a b hlt =>
      rw [hvalue] at hlt ⊢
      have ha := hval a (by simp [Formula.mentions, Operand.key?])
      have hb := hval b (by simp [Formula.mentions, Operand.key?])
      rw [ha]
      exact .right (show ¬ run.value a < run.value b by rwa [← ha, ← hb])
  | @passed p c key k hlive _ ih =>
      have hp : p.truth run'.value = p.truth run.value :=
        Formula.truth_congr fun x hx => hval x (List.mem_append.2 (.inl hx))
      refine .passed ?_ (ih fun x hx => hval x (List.mem_append.2 (.inr hx)))
      unfold isLive at hlive ⊢
      rw [hvalue] at hlive ⊢
      rwa [← hp]

theorem Asks.of_uncommitted (h : run.uncommitted.Asks f key k) : run.Asks f key k :=
  h.of_fired_subset (show run.uncommitted.value = run.value from rfl)
    (show run.uncommitted.fired ⊆ run.fired from List.nil_subset _)

/-- What a formula asks for before anything is fired, it gets in full. -/
def Granted (run : Run) (f : Formula) : Prop := ∀ key k, run.uncommitted.Asks f key k → k ≤ run.value key

theorem Granted.congr (h : run.Granted f) (hval : ∀ x ∈ f.mentions, run'.value x = run.value x) :
    run'.Granted f := by
  intro key k hask
  rw [hval key hask.mem_mentions]
  exact h key k (hask.congr_uncommitted hval)

/-- Atoms that an equality joins have the same kind. -/
theorem Granted.value_eq {a b : AtomKey} (h : run.Granted (.eq (.atom a) (.atom b))) :
    run.value a = run.value b := by
  by_cases hlt : run.value a < run.value b
  · exact absurd (h a _ (.left hlt)) (not_le.2 hlt)
  · exact le_antisymm (h b _ (.right hlt)) (not_lt.1 hlt)

/-- A move takes a request back only if the formula mentions the atom that moved. -/
theorem Granted.apply (h : run.Granted g) (s : Store) (id : ConstraintId) (f : Formula) :
    (run.apply s id f).2.Granted g ∨ ∃ moved, (run.apply s id f).1 = some moved ∧ moved ∈ g.mentions := by
  cases hmove : (run.apply s id f).1 with
  | none => exact .inl (h.congr fun x _ => congrFun (value_apply_of_none hmove) x)
  | some moved =>
      obtain ⟨-, -, -, hval⟩ := apply_of_some hmove
      by_cases hg : moved ∈ g.mentions
      · exact .inr ⟨moved, rfl, hg⟩
      · exact .inl (h.congr fun x hx => hval x fun e => hg (e ▸ hx))

/-! ### Nothing refused -/

/-- No request was refused. -/
def Unrefused (run : Run) : Prop := ∀ site, run.refusals.contains site = false

theorem lasting_refused (s : Store) (site : Site) : Lasting s fun run => run.refusals.contains site = true where
  visit _ h := h
  commit _ _ h := h
  raise run id key k h := by
    rcases refusals_raise s id run key k with he | ⟨r, he⟩
    · rwa [he]
    · rw [he, SortedMap.contains_insertNew]
      exact .inr h

/-- What was not refused at the end was not refused on the way. -/
theorem Settles.unrefused (h : Settles s blocked run queue run') (hend : run'.Unrefused) : run.Unrefused :=
  fun site => Bool.eq_false_iff.2 fun hc =>
    Bool.eq_false_iff.1 (hend site) (h.lasts (lasting_refused s site) hc)

/-- A formula that is applied without a refusal is granted, or moves one of its atoms. -/
theorem granted_apply (hreg : ∀ x ∈ f.mentions, s.atoms.contains x = true)
    (hmove : (run.apply s id f).1 = none) (hclean : (run.apply s id f).2.Unrefused) :
    (run.apply s id f).2.Granted f := by
  have hval := value_apply_of_none hmove
  intro key k hask
  have hask : run.Asks f key k := (hask.congr_uncommitted fun x _ => congrFun hval x).of_uncommitted
  rw [hval]
  rcases apply_cases s id run f with ⟨-, hno⟩ | ⟨key', k', hask', e⟩
  · exact absurd hask (hno key k)
  obtain ⟨rfl, rfl⟩ := hask'.unique hask
  rw [e] at hmove hclean
  rcases raise_cases s id run key' k' with ⟨-, hle | hunknown⟩ | ⟨a, -, -, -, e⟩ | ⟨a, g, r, -, -, -, -, e⟩
  · exact hle
  · have hkey := hreg key' hask.mem_mentions
    unfold SortedMap.contains at hkey
    rw [hunknown] at hkey
    exact nomatch hkey
  · have hrefused := hclean ⟨id, some key'⟩
    rw [e] at hrefused
    exact absurd ((SortedMap.contains_insertNew ..).2 (.inl rfl)) (Bool.eq_false_iff.1 hrefused)
  · rw [e] at hmove
    exact nomatch hmove

/-! ### What is due -/

/-- Everything on record is granted, waits for a visit, or is still to be applied in the visit
under way. -/
def Due (s : Store) (run : Run) (queue : List AtomKey) (rest : List (ConstraintId × Formula)) : Prop :=
  ∀ x, ∀ c ∈ s.formulasAt x, run.Granted c.2 ∨ (∃ y ∈ c.2.mentions, y ∈ queue) ∨ c ∈ rest

theorem Due.granted (h : Due s run [] []) (hc : c ∈ s.formulasAt x) : run.Granted c.2 := by
  rcases h x c hc with hc | ⟨y, -, hnil⟩ | hnil
  · exact hc
  · exact absurd hnil List.not_mem_nil
  · exact absurd hnil List.not_mem_nil

theorem Due.step (hs : s.Filed) (h : Due s run queue (c :: rest))
    (hclean : (Run.step s (run, queue) c).1.Unrefused) :
    Due s (Run.step s (run, queue) c).1 (Run.step s (run, queue) c).2 rest := by
  intro x d hd
  have hreg : ∀ y ∈ d.2.mentions, s.atoms.contains y = true := fun y hy =>
    Store.contains_of_mem_formulasAt ((hs.mem_formulasAt_iff hd).2 hy)
  have hkept := fun hold : run.Granted d.2 => hold.apply s c.1 c.2
  have hself : (∀ y ∈ c.2.mentions, s.atoms.contains y = true) → (run.apply s c.1 c.2).1 = none →
      (run.apply s c.1 c.2).2.Unrefused → (run.apply s c.1 c.2).2.Granted c.2 := granted_apply
  have hmoved : ∀ moved, (run.apply s c.1 c.2).1 = some moved → moved ∈ c.2.mentions := fun _ h =>
    (apply_of_some h).1
  unfold Run.step at hclean ⊢
  generalize run.apply s c.1 c.2 = r at hclean hkept hself hmoved ⊢
  obtain ⟨moved | moved, after⟩ := r
  · rcases h x d hd with hold | hwait | hrest
    · refine .inl ((hkept hold).resolve_right ?_)
      rintro ⟨_, hnone, -⟩
      exact nomatch hnone
    · exact .inr (.inl hwait)
    · rcases List.mem_cons.1 hrest with rfl | hrest
      · exact .inl (hself hreg rfl hclean)
      · exact .inr (.inr hrest)
  · have hqueued : moved ∈ d.2.mentions → ∃ y ∈ d.2.mentions, y ∈ enqueue queue moved := fun hmem =>
      ⟨moved, hmem, mem_enqueue.2 (.inr rfl)⟩
    rcases h x d hd with hold | ⟨y, hy, hq⟩ | hrest
    · rcases hkept hold with hold | ⟨_, he, hmem⟩
      · exact .inl hold
      · exact .inr (.inl (hqueued (Option.some.inj he ▸ hmem)))
    · exact .inr (.inl ⟨y, hy, mem_enqueue.2 (.inl hq)⟩)
    · rcases List.mem_cons.1 hrest with rfl | hrest
      · exact .inr (.inl (hqueued (hmoved moved rfl)))
      · exact .inr (.inr hrest)

theorem Due.steps (hs : s.Filed) (h : Due s run queue rest)
    (hclean : (rest.foldl (Run.step s) (run, queue)).1.Unrefused) :
    Due s (rest.foldl (Run.step s) (run, queue)).1 (rest.foldl (Run.step s) (run, queue)).2 [] := by
  induction rest generalizing run queue with
  | nil => exact h
  | cons c rest ih =>
      refine ih (h.step hs fun site => Bool.eq_false_iff.2 fun hc => ?_) hclean
      exact Bool.eq_false_iff.1 (hclean site) ((lasting_refused s site).steps rest _ hc)

/-- A visit leaves nothing due at the atom taken off the queue. -/
theorem Due.visit (hs : s.Filed) (h : Due s run (key :: queue) [])
    (hclean : (run.visit s key queue).1.Unrefused) :
    Due s (run.visit s key queue).1 (run.visit s key queue).2 [] := by
  refine Due.steps hs (fun x c hc => ?_) hclean
  rcases h x c hc with hold | ⟨y, hy, hq⟩ | hnil
  · exact .inl (hold.congr fun _ _ => rfl)
  · rcases List.mem_cons.1 hq with rfl | hq
    · exact .inr (.inr ((hs.mem_formulasAt_iff hc).2 hy))
    · exact .inr (.inl ⟨y, hy, hq⟩)
  · exact absurd hnil List.not_mem_nil

/-- A phase in which nothing is refused leaves nothing due. -/
theorem Settles.due (hs : s.Filed) (h : Settles s blocked run queue run') (hclean : run'.Unrefused)
    (hdue : Due s run queue []) : Due s run' [] [] := by
  induction h with
  | visit hrest ih => exact ih hclean (hdue.visit hs (hrest.unrefused hclean))
  | @fire run _ id p c hnext hrest ih =>
      refine ih hclean fun x d hd => ?_
      have hold : (run.commitTo (.implies p c)).Granted d.2 := (hdue.granted hd).congr fun _ _ => rfl
      rcases hold.apply s id c with hold | ⟨moved, he, hmem⟩
      · exact .inl hold
      · rw [he]
        exact .inr (.inl ⟨moved, hmem, List.mem_singleton_self moved⟩)
  | rest => exact hdue

theorem Due.enqueued (h : Due s run seeds []) : Due s run (seeds.foldl enqueue []) [] := fun x c hc =>
  (h x c hc).imp_right <| .imp_left fun ⟨y, hy, hq⟩ => ⟨y, hy, (mem_foldl_enqueue seeds []).2 (.inr hq)⟩

/-- Everything is due at the start. -/
theorem due_keys (hs : s.Filed) (run : Run) : Due s run s.atoms.keys [] := fun x _ hc =>
  .inr (.inl ⟨x, (hs.mem_formulasAt_iff hc).1 hc,
    (SortedMap.mem_keys_iff ..).2 (Store.contains_of_mem_formulasAt hc)⟩)

theorem Due.promote (h : Due s run [] []) (keys : List AtomKey) : Due s (run.promote keys) keys [] := by
  intro x c hc
  by_cases hmem : ∃ y ∈ c.2.mentions, y ∈ keys
  · exact .inr (.inl hmem)
  · refine .inl ((h.granted hc).congr fun y hy => ?_)
    rw [value_promote, if_neg fun hkey => hmem ⟨y, hy, hkey⟩]

/-- If nothing is refused in a round, nothing is due before the preferences are looked at, and
nothing at the end. -/
theorem due_round (hs : s.Filed) (hclean : (round s s.atoms.keys blocked).Unrefused) :
    Due s (hard s s.atoms.keys blocked) [] [] ∧ Due s (round s s.atoms.keys blocked) [] [] := by
  have hlast := settles_settle s blocked (softened s s.atoms.keys blocked)
    ((hard s s.atoms.keys blocked).promotions s)
  have hfirst := settles_settle s blocked (Run.start s) s.atoms.keys
  have hclean₁ : (hard s s.atoms.keys blocked).Unrefused := fun site =>
    (congrArg (·.contains site) (refusals_promote ..)).symm.trans (hlast.unrefused hclean site)
  have hdue := hfirst.due hs hclean₁ (due_keys hs _).enqueued
  exact ⟨hdue, hlast.due hs hclean (hdue.promote _).enqueued⟩

/-! ### The same components -/

theorem value_of_joined (h : Due s run [] []) {a b : AtomKey} (hc : c ∈ s.formulasAt x)
    (hjoin : c.2.atomAtom? = some (a, b)) : run.value a = run.value b :=
  (atomAtom?_eq_some.1 hjoin ▸ h.granted hc).value_eq

/-- Where nothing is due, a plain array has all atoms it is joined to as neighbours. -/
theorem arrNeighbours_congr (hs : s.Filed) (h : Due s run [] []) (h' : Due s run' [] [])
    (hx : run.value x = .arr) (hx' : run'.value x = .arr) :
    run.arrNeighbours s x = run'.arrNeighbours s x := by
  refine List.filterMap_congr fun c hc => ?_
  cases hjoin : c.2.atomAtom? with
  | none => rfl
  | some ab =>
      obtain ⟨a, b⟩ := ab
      have hself : x = a ∨ x = b := by
        have hmem := (hs.mem_formulasAt_iff hc).1 hc
        rw [atomAtom?_eq_some.1 hjoin] at hmem
        simpa [Formula.mentions, Operand.key?] using hmem
      have hother : ∀ r : Run, r.value a = r.value b → r.value x = .arr →
          r.value (if a = x then b else a) = .arr := by
        intro r he hr
        rcases hself with rfl | rfl
        · rw [if_pos rfl, ← he, hr]
        · split
          · exact hr
          · rw [he, hr]
      simp only [hother run (value_of_joined h hc hjoin) hx,
        hother run' (value_of_joined h' hc hjoin) hx']

/-- A walk among plain arrays goes the same way in two runs that give them the same neighbours. -/
theorem Explores.transfer (hsame : ∀ x, run.value x = .arr → run'.value x = .arr →
      run.arrNeighbours s x = run'.arrNeighbours s x)
    {met stack met' : List AtomKey} (h : Explores s run met stack met') (hnodup : met.Nodup)
    (hstack : ∀ x ∈ stack, run.value x = .arr ∧ run'.value x = .arr) : Explores s run' met stack met' := by
  induction h with
  | done => exact .done
  | @step met _ stack key _ ih =>
      obtain ⟨harr, harr'⟩ := hstack key List.mem_cons_self
      have hneighbours := hsame key harr harr'
      obtain ⟨hnodup', -, hstack', -⟩ := foldl_meet_spec (run.arrNeighbours s key) met stack hnodup
      have hrest := ih hnodup' fun x hx => ?_
      · exact .step (hneighbours ▸ hrest)
      · rcases (hstack' x).1 hx with hx | ⟨hx, -⟩
        · exact hstack x (List.mem_cons_of_mem key hx)
        · exact ⟨value_of_mem_arrNeighbours hx, value_of_mem_arrNeighbours (hneighbours ▸ hx)⟩

theorem Explores.unique {met stack met₁ met₂ : List AtomKey} (h : Explores s run met stack met₁)
    (h' : Explores s run met stack met₂) : met₁ = met₂ := by
  induction h with
  | done =>
      cases h' with
      | done => rfl
  | step _ ih =>
      cases h' with
      | step h' => exact ih h'

/-- Where nothing is due, a plain array has one component. -/
theorem component_congr (hs : s.Filed) (h : Due s run [] []) (h' : Due s run' [] [])
    (hx : run.value x = .arr) (hx' : run'.value x = .arr) : run.component s x = run'.component s x := by
  have hwalk : Explores s run' [x] [x] (run.component s x) := by
    refine (explores_component s (mem_arrAtoms.2 hx)).transfer
      (fun y hy hy' => arrNeighbours_congr hs h h' hy hy') (List.nodup_singleton x) fun y hy => ?_
    rw [List.mem_singleton.1 hy]
    exact ⟨hx, hx'⟩
  exact hwalk.unique (explores_component s (mem_arrAtoms.2 hx'))

/-! ### Late arrays -/

theorem lasting_le (s : Store) (x : AtomKey) (k : Kind) : Lasting s fun run => k ≤ run.value x where
  visit _ h := h
  commit _ _ h := h
  raise _ _ _ _ h := le_trans h (le_value_raise ..)

/-- What is still to be promoted after a round in which nothing was refused was no array before
the preferences were looked at. -/
theorem late_of_mem_promotions (hs : s.Filed) (hclean : (round s s.atoms.keys blocked).Unrefused)
    (hx : x ∈ (round s s.atoms.keys blocked).promotions s) :
    (hard s s.atoms.keys blocked).value x = .ptr ∧ (round s s.atoms.keys blocked).value x = .arr := by
  obtain ⟨harr, hwants, hfree⟩ := mem_promotions hx
  obtain ⟨hdue, hdue'⟩ := due_round hs hclean
  have hlast := settles_settle s blocked (softened s s.atoms.keys blocked)
    ((hard s s.atoms.keys blocked).promotions s)
  have hle : (softened s s.atoms.keys blocked).value x ≤ (round s s.atoms.keys blocked).value x :=
    hlast.lasts (lasting_le s x _) (le_refl _)
  refine ⟨Kind.eq_ptr_of_lt_arr (lt_of_le_of_ne ?_ fun hhard => ?_), harr⟩
  · exact harr ▸ le_trans (le_value_promotions _ x) hle
  · have hpromoted : x ∈ (hard s s.atoms.keys blocked).promotions s := by
      refine List.mem_filter.2 ⟨mem_arrAtoms.2 hhard, ?_⟩
      simp only [component_congr hs hdue hdue' hhard harr, hwants, hfree]
      rfl
    rw [harr, softened, value_promote, if_pos hpromoted] at hle
    exact absurd hle (by decide)

theorem Settles.idle (h : Settles s blocked run queue run') : run'.waiting? s blocked = none := by
  induction h with
  | visit _ ih | fire _ _ ih => exact ih
  | rest hnext => exact hnext

/-- Where nobody waits, a phase is over at once. -/
theorem Settles.eq_of_idle (h : Settles s blocked run [] run') (hidle : run.waiting? s blocked = none) :
    run' = run := by
  cases h with
  | fire hnext => exact nomatch hidle.symm.trans hnext
  | rest => rfl

/-- A raise promotes nothing, and what is on record stays there. -/
theorem record_raise (s : Store) (id : ConstraintId) (run : Run) (key : AtomKey) (k : Kind) :
    (run.raise s id key k).2.promoted = run.promoted ∧ run.moves <+: (run.raise s id key k).2.moves := by
  rcases raise_cases s id run key k with ⟨e, -⟩ | ⟨a, -, -, -, e⟩ | ⟨a, g, run', -, -, -, hr, e⟩
  · rw [e]
    exact ⟨rfl, List.prefix_rfl⟩
  · rw [e]
    exact ⟨rfl, List.prefix_rfl⟩
  · rw [e]
    rcases hr with ⟨-, rfl⟩ | ⟨-, rfl⟩ <;> exact ⟨rfl, List.prefix_append _ _⟩

theorem lasting_promoted (s : Store) (n : Nat) : Lasting s fun run => run.promoted = n where
  visit _ h := h
  commit _ _ h := h
  raise run id key k h := (record_raise s id run key k).1.trans h

theorem lasting_record (s : Store) (l : List Move) : Lasting s fun run => l <+: run.moves where
  visit _ h := h
  commit _ _ h := h
  raise run id key k h := h.trans (record_raise s id run key k).2

/-- A round promotes what it chooses before it goes on. -/
theorem promoted_round (s : Store) (seeds : List AtomKey) (blocked : List Formula) :
    (round s seeds blocked).promoted = ((hard s seeds blocked).promotions s).length := by
  have hhard : (hard s seeds blocked).promoted = 0 :=
    (settles_settle s blocked (Run.start s) seeds).lasts (lasting_promoted s 0) rfl
  refine (settles_settle s blocked (softened s seeds blocked) _).lasts (lasting_promoted s _) ?_
  rw [softened, promoted_promote, hhard, Nat.zero_add]

/-- Where nothing is promoted, a round ends before the preferences. -/
theorem value_round_of_promoted (h : (round s seeds blocked).promoted = 0) :
    (round s seeds blocked).value = (hard s seeds blocked).value := by
  have hnone : (hard s seeds blocked).promotions s = [] :=
    List.eq_nil_of_length_eq_zero ((promoted_round s seeds blocked).symm.trans h)
  have hidle : (hard s seeds blocked).waiting? s blocked = none :=
    (settles_settle s blocked (Run.start s) seeds).idle
  have hsame : softened s seeds blocked = hard s seeds blocked := by
    rw [softened, hnone]
    rfl
  have hround : round s seeds blocked = (hard s seeds blocked).settle s blocked [] := by
    show (softened s seeds blocked).settle s blocked ((hard s seeds blocked).promotions s) = _
    rw [hnone, hsame]
  rw [hround, (settles_settle s blocked (hard s seeds blocked) []).eq_of_idle hidle]

/-! ### Nothing to do -/

/-- A run that nothing on record asks anything of, and in which no implication can wait. -/
structure Quiet (s : Store) (run : Run) : Prop where
  fresh : run.fired = []
  granted : ∀ x, ∀ c ∈ s.formulasAt x, run.Granted c.2
  holds : ∀ p c, s.InForce (.implies p c) → p.truth run.value = .yes → c.holds run.value = true

/-- The number of visits makes no difference. -/
theorem Quiet.counted (h : Quiet s run) (n : Nat) : Quiet s { run with iterations := n } :=
  ⟨h.fresh, fun x c hc => (h.granted x c hc).congr fun _ _ => rfl, h.holds⟩

theorem apply_of_granted (hfired : run.fired = []) (h : run.Granted f) : run.apply s id f = (none, run) := by
  rcases apply_cases s id run f with ⟨e, -⟩ | ⟨key, k, hask, e⟩
  · exact e
  · rw [← uncommitted_of_fired hfired] at hask
    rw [e, raise, if_pos (h key k hask)]

theorem Quiet.visit (h : Quiet s run) (key : AtomKey) (queue : List AtomKey) :
    run.visit s key queue = ({ run with iterations := run.iterations + 1 }, queue) := by
  have hsteps : ∀ l : List (ConstraintId × Formula), (∀ c ∈ l, run.Granted c.2) →
      l.foldl (Run.step s) ({ run with iterations := run.iterations + 1 }, queue) =
        ({ run with iterations := run.iterations + 1 }, queue) := by
    intro l
    induction l with
    | nil => exact fun _ => rfl
    | cons c rest ih =>
        intro hl
        have hc : ({ run with iterations := run.iterations + 1 } : Run).Granted c.2 :=
          (hl c List.mem_cons_self).congr fun _ _ => rfl
        have hfired : ({ run with iterations := run.iterations + 1 } : Run).fired = [] := h.fresh
        rw [List.foldl_cons, Run.step, apply_of_granted hfired hc]
        exact ih fun d hd => hl d (List.mem_cons_of_mem c hd)
  exact hsteps _ (h.granted key)

theorem Quiet.drain (h : Quiet s run) (fuel : Nat) (queue : List AtomKey) :
    ∃ n, run.drain s fuel queue = { run with iterations := n } := by
  induction fuel generalizing run queue with
  | zero => cases queue <;> exact ⟨run.iterations, rfl⟩
  | succ fuel ih =>
      cases queue with
      | nil => exact ⟨run.iterations, rfl⟩
      | cons key rest =>
          simp only [Run.drain, h.visit]
          exact ih (h.counted _) rest

theorem Quiet.waiting? (h : Quiet s run) (blocked : List Formula) : run.waiting? s blocked = none := by
  refine List.find?_eq_none.2 fun c hc hwait => ?_
  obtain ⟨p, q, hf, -, -, -, htruth, hholds⟩ := isWaiting_iff.1 hwait
  have hholds' := h.holds p q ⟨c.1, hf ▸ hc⟩ htruth
  rw [hholds] at hholds'
  exact nomatch hholds'

/-- A phase from there only counts visits. -/
theorem Quiet.settle (h : Quiet s run) (blocked : List Formula) (seeds : List AtomKey) :
    ∃ n, run.settle s blocked seeds = { run with iterations := n } := by
  obtain ⟨n, hn⟩ := h.drain _ (seeds.foldl enqueue [])
  refine ⟨n, ?_⟩
  have hidle := (h.counted n).waiting? blocked
  unfold Run.settle propagate
  rw [hn]
  cases s.active.length with
  | zero => rfl
  | succ fuel => rw [fireAll, hidle]

theorem promotions_counted (s : Store) (run : Run) (n : Nat) :
    ({ run with iterations := n } : Run).promotions s = run.promotions s := by
  have hafter : ∀ m, (({ run with iterations := 0 } : Run).after [] m).promotions s =
      ({ run with iterations := 0 } : Run).promotions s := fun _ => promotions_after
  exact (hafter n).trans (hafter run.iterations).symm

/-- A round from there moves nothing before it looks at the preferences, so that it promotes what
they choose at the start. -/
theorem Quiet.hard (h : Quiet s (Run.start s)) (seeds : List AtomKey) (blocked : List Formula) :
    (Run.hard s seeds blocked).moves = [] ∧
      (Run.hard s seeds blocked).promotions s = (Run.start s).promotions s := by
  obtain ⟨n, hhard⟩ := h.settle blocked seeds
  exact ⟨congrArg Run.moves hhard, (congrArg (promotions s) hhard).trans (promotions_counted s _ n)⟩

/-- If they choose nothing there, the round does nothing. -/
theorem Quiet.round_of_none (h : Quiet s (Run.start s)) (seeds : List AtomKey) (blocked : List Formula)
    (hnone : (Run.start s).promotions s = []) :
    ∃ n, round s seeds blocked = { Run.start s with iterations := n } := by
  obtain ⟨-, hchosen⟩ := h.hard seeds blocked
  obtain ⟨n, hhard⟩ := h.settle blocked seeds
  obtain ⟨m, hm⟩ := (h.counted n).settle blocked []
  refine ⟨m, ?_⟩
  show (softened s seeds blocked).settle s blocked ((Run.hard s seeds blocked).promotions s) = _
  rw [softened, hchosen, hnone, Run.hard, hhard]
  exact hm

/-- What the preferences choose is promoted before the round goes on: the promotions follow the
moves up to there, and each atom stays null-terminated at least. -/
theorem promotes_round (s : Store) (seeds : List AtomKey) (blocked : List Formula) :
    (hard s seeds blocked).moves ++ ((hard s seeds blocked).promotions s).map (⟨·, .arr, .ntArr⟩) <+:
      (round s seeds blocked).moves ∧
    ∀ x ∈ (hard s seeds blocked).promotions s, .ntArr ≤ (round s seeds blocked).value x := by
  have hlast := settles_settle s blocked (softened s seeds blocked) ((hard s seeds blocked).promotions s)
  refine ⟨hlast.lasts (lasting_record s _) ?_, fun x hx => hlast.lasts (lasting_le s x _) ?_⟩
  · have hmoves := moves_promote (nodup_promotions s (hard s seeds blocked)) fun key hkey => (mem_promotions hkey).1
    exact ⟨[], (List.append_nil _).trans hmoves.symm⟩
  · rw [softened, value_promote, if_pos hx]

/-- A round from there promotes what the preferences choose at the start, first of all and at once. -/
theorem Quiet.promotes_round (h : Quiet s (Run.start s)) (seeds : List AtomKey) (blocked : List Formula) :
    let late := (Run.start s).promotions s
    let hard := Run.hard s seeds blocked
    hard.moves = [] ∧ round s seeds blocked = (hard.promote late).settle s blocked late ∧
      late.map (⟨·, .arr, .ntArr⟩) <+: (round s seeds blocked).moves ∧
      (round s seeds blocked).promoted = late.length ∧ ∀ x ∈ late, .ntArr ≤ (round s seeds blocked).value x := by
  intro late hard
  obtain ⟨hidle, hchosen⟩ := h.hard seeds blocked
  obtain ⟨hmoves, hvalues⟩ := Run.promotes_round s seeds blocked
  have hcount := promoted_round s seeds blocked
  have hround : round s seeds blocked = (hard.promote (hard.promotions s)).settle s blocked (hard.promotions s) := rfl
  rw [hidle] at hmoves
  rw [hchosen] at hmoves hvalues hcount hround
  exact ⟨hidle, hround, hmoves, hcount, hvalues⟩

end Run

namespace Store

variable {s : Store} {x : AtomKey}

/-- What the preferences choose depends on the kinds only. -/
theorem promotions_commit (s : Store) (run : Run) :
    (Run.start (s.commit run)).promotions (s.commit run) = run.promotions s := by
  have hexplore : ∀ (fuel : Nat) (met stack : List AtomKey),
      (Run.start (s.commit run)).explore (s.commit run) fuel met stack = run.explore s fuel met stack := by
    intro fuel
    induction fuel with
    | zero => intro met stack; cases stack <;> rfl
    | succ fuel ih =>
        intro met stack
        cases stack with
        | nil => rfl
        | cons key rest => exact ih _ _
  have harr : (Run.start (s.commit run)).arrAtoms = run.arrAtoms := rfl
  unfold Run.promotions Run.component
  simp only [harr, hexplore]
  rfl

theorem unrefused_of_isEmpty {run : Run} (h : run.refusals.isEmpty = true) : run.Unrefused := by
  intro site
  have hnil : run.refusals.entries = [] := List.isEmpty_iff.1 h
  unfold SortedMap.contains SortedMap.get?
  rw [hnil]
  rfl

/-- A solved store has nothing to do. -/
theorem quiet_solve (hs : s.Filed) (h : s.solve.1.isSolved = true) :
    Run.Quiet s.solve.2 (Run.start s.solve.2) := by
  obtain ⟨hclean, hviolation⟩ := Run.isEmpty_conflicts.1 h
  have hrun := solution_eq_round s s.atoms.keys
  have hdue : Run.Due s (s.solution s.atoms.keys).run [] [] := by
    have hclean := unrefused_of_isEmpty hclean
    rw [hrun] at hclean ⊢
    exact (Run.due_round hs hclean).2
  refine ⟨rfl, fun x c hc => (hdue.granted hc).congr fun _ _ => rfl, fun p c hf htruth => ?_⟩
  have hholds := hviolation (.implies p c) hf
  simp only [Formula.violation?, Formula.holds] at hholds
  have htruth : p.truth (s.solution s.atoms.keys).run.value = .yes := htruth
  show c.holds (s.solution s.atoms.keys).run.value = true
  simpa [htruth] using hholds

/-- Where there is nothing to do and nothing late, solving leaves the store as it is. -/
theorem solve_of_quiet (h : Run.Quiet s (Run.start s))
    (hviolation : ∀ f, s.InForce f → f.violation? s.value = none)
    (hnone : (Run.start s).promotions s = []) :
    s.solve.1.isSolved = true ∧ s.solve.1.stats.assignments = 0 ∧ s.solve.1.stats.promoted = 0 ∧ s.solve.2 = s := by
  obtain ⟨n, hround⟩ := h.round_of_none s.atoms.keys (s.solution s.atoms.keys).blocked hnone
  have hrun : (s.solution s.atoms.keys).run = { Run.start s with iterations := n } :=
    (solution_eq_round s s.atoms.keys).trans hround
  have htrace : s.trace.map (· ++ (Run.start s).moves) = s.trace := by
    cases s.trace <;> simp [Run.start]
  refine ⟨?_, ?_, ?_, ?_⟩
  · show ((s.solution s.atoms.keys).run.conflicts s).isEmpty = true
    rw [hrun]
    exact Run.isEmpty_conflicts.2 ⟨rfl, hviolation⟩
  · show (s.solution s.atoms.keys).run.assignments = 0
    rw [hrun]
    rfl
  · show (s.solution s.atoms.keys).run.promoted = 0
    rw [hrun]
    rfl
  · show s.commit (s.solution s.atoms.keys).run = s
    rw [hrun]
    exact congrArg (fun trace => { s with trace }) htrace

/-- **Solving again only promotes late arrays.**  Whatever the constraints, filters and preferences
and the kinds a reachable store starts from, if it is solved then solving it once more at once
promotes exactly the atoms that the preferences, looked at again, choose: it moves nothing before
it looks at the preferences, these atoms are the ones it promotes then, its first moves are their
promotions and they are counted as promoted, and each of them is null-terminated at least in the
end.  Each of them was no array yet when the first run looked at its preferences, and became one
only while the promotions were settled.  There is none of them exactly if the second run is solved,
moves nothing, promotes nothing and leaves the store as it is, with the kinds and the remembered
constraints; and there is none if the first run promoted nothing. -/
theorem solve_again (hs : s.Reachable) (env : SortedMap AtomKey Kind)
    (hsolved : (s.startingFrom env).solve.1.isSolved = true) :
    let s' := s.startingFrom env
    let t := s'.solve.2
    let late := (Run.start t).promotions t
    let again := t.solution t.atoms.keys
    let hard := Run.hard t t.atoms.keys again.blocked
    (hard.moves = [] ∧ again.run = (hard.promote late).settle t again.blocked late ∧
      late.map (⟨·, .arr, .ntArr⟩) <+: again.run.moves ∧ t.solve.1.stats.promoted = late.length ∧
      ∀ x ∈ late, .ntArr ≤ t.solve.2.value x) ∧
    (∀ x ∈ late, (Run.hard s' s'.atoms.keys (s'.solution s'.atoms.keys).blocked).value x = .ptr ∧
      t.value x = .arr) ∧
    (late = [] ↔ t.solve.1.isSolved = true ∧ t.solve.1.stats.assignments = 0 ∧
      t.solve.1.stats.promoted = 0 ∧ t.solve.2 = t) ∧
    (s'.solve.1.stats.promoted = 0 → late = []) := by
  have hfiled : (s.startingFrom env).Filed := hs.filed.of_eq rfl rfl rfl rfl
  generalize s.startingFrom env = s at *
  intro s' t late again hard
  have hquiet : Run.Quiet t (Run.start t) := quiet_solve hfiled hsolved
  obtain ⟨hclean, hviolation⟩ := Run.isEmpty_conflicts.1 hsolved
  have hrun := solution_eq_round s s.atoms.keys
  have hlate : late = (s.solution s.atoms.keys).run.promotions s := promotions_commit s _
  have hpromotes := hquiet.promotes_round t.atoms.keys again.blocked
  rw [← solution_eq_round t t.atoms.keys] at hpromotes
  have harrays : ∀ x ∈ late, (Run.hard s s.atoms.keys (s.solution s.atoms.keys).blocked).value x = .ptr ∧
      t.value x = .arr := by
    have hclean := unrefused_of_isEmpty hclean
    rw [hrun] at hclean
    intro x hx
    rw [hlate, hrun] at hx
    obtain ⟨hptr, harr⟩ := Run.late_of_mem_promotions hfiled hclean hx
    rw [← hrun] at harr
    exact ⟨hptr, harr⟩
  refine ⟨hpromotes, harrays, ⟨solve_of_quiet hquiet hviolation, fun h => ?_⟩, fun hnone => ?_⟩
  · exact List.eq_nil_of_length_eq_zero (hpromotes.2.2.2.1.symm.trans h.2.2.1)
  · have hnone : (Run.round s s.atoms.keys (s.solution s.atoms.keys).blocked).promoted = 0 := by
      rw [← hrun]
      exact hnone
    refine List.eq_nil_iff_forall_not_mem.2 fun x hx => ?_
    obtain ⟨hptr, harr⟩ := harrays x hx
    rw [← Run.value_round_of_promoted hnone, ← hrun] at hptr
    exact nomatch harr.symm.trans hptr

/-! ### A concrete store -/

/-- An unchecked atom makes another an array, which would rather be null-terminated; once it is,
it makes a third an array, which would rather be so too. -/
def cascade : Store := performAll {}
  [.createEq (.atom 2) (.kind .wild) {}, .add 0, .createEq (.atom 0) (.kind .arr) {}, .createImplies 0 1,
    .add 2, .createEq (.atom 0) (.kind .ntArr) {}, .createEq (.atom 1) (.kind .arr) {}, .createImplies 3 4,
    .add 5, .prefer 0 { ifArrThenNtArr := true }, .prefer 1 { ifArrThenNtArr := true }]

theorem cascade_reachable : cascade.Reachable := reachable_performAll _

/-- The store is solved, and solving it again still promotes an atom. -/
theorem cascade_moves_again : cascade.Reachable ∧ cascade.solve.1.isSolved = true ∧
    ¬ (cascade.solve.2.solve.1.isSolved = true ∧ cascade.solve.2.solve.1.stats.assignments = 0 ∧
      cascade.solve.2.solve.1.stats.promoted = 0 ∧ cascade.solve.2.solve.2.env = cascade.solve.2.env ∧
      cascade.solve.2.solve.2.forcedBy = cascade.solve.2.forcedBy) :=
  ⟨cascade_reachable, by decide, by decide⟩

/-- The third atom was a checked pointer when the preferences were first looked at.  Solving for the
second time promotes it and no other, and solving for the third time does nothing. -/
theorem cascade_comes_to_rest : cascade.Reachable ∧
    (cascade.startingFrom ∅).solve.1.isSolved = true ∧
    (Run.start (cascade.startingFrom ∅).solve.2).promotions (cascade.startingFrom ∅).solve.2 = [1] ∧
    [⟨1, .arr, .ntArr⟩] <+: ((cascade.startingFrom ∅).solve.2.solution [0, 1, 2]).run.moves ∧
    (cascade.startingFrom ∅).solve.2.solve.1.stats.promoted = 1 ∧
    .ntArr ≤ (cascade.startingFrom ∅).solve.2.solve.2.value 1 ∧
    (Run.hard (cascade.startingFrom ∅) [0, 1, 2] []).value 1 = .ptr ∧
    cascade.solve.2.solve.1.isSolved = true ∧
    cascade.solve.2.solve.2.solve.1.stats.assignments = 0 ∧
    cascade.solve.2.solve.2.solve.2 = cascade.solve.2.solve.2 := by
  have hlate : (Run.start (cascade.startingFrom ∅).solve.2).promotions (cascade.startingFrom ∅).solve.2 = [1] := by
    decide
  obtain ⟨⟨-, -, hrecord, hcount, hkinds⟩, harrays, -⟩ := solve_again cascade_reachable ∅ (by decide)
  obtain ⟨-, -, hrest, -⟩ := solve_again (s := cascade.solve.2) (cascade_reachable.perform .solve)
    cascade.solve.2.env (by decide)
  obtain ⟨-, hmoves, -, hsame⟩ := hrest.1 (by decide)
  rw [hlate] at hrecord hcount hkinds
  exact ⟨cascade_reachable, by decide, hlate, hrecord, hcount, hkinds 1 (List.mem_singleton_self 1),
    (harrays 1 (hlate ▸ List.mem_singleton_self 1)).1, by decide, hmoves, hsame⟩

end Store

end PointerKinds
