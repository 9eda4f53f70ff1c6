/-
Draining the queue leaves nothing undone.

A formula is settled in a run if whatever it asks for is met.  A move can only unsettle
formulas that mention the atom that moved, and the atom that moved joins the queue; so a
formula that is not settled mentions an atom that waits.  `Owed` says this of the whole
store, and when the queue is empty it says that everything is settled.

The argument does not depend on what it is to be met.  It goes through for every notion of an
answer that a raise gives and that only a move of the atom takes back, and `Pending` is
what is owed under such a notion.

The queue does become empty.  Every visit takes one atom off it, and every atom put on
it has moved up the chain, so the length of the queue together with the room left above
the atoms goes down with every visit.
-/
import PointerKinds.Proofs.Solver.Demand
import PointerKinds.Proofs.Store.Index

namespace PointerKinds

namespace Run

variable {s : Store} {run run' : Run} {f g : Formula} {key : AtomKey} {k : Kind} {queue : List AtomKey}

/-! ### Requests that stay -/

/-- What a flat formula asks for depends on the kinds of its atoms and on whether it was
fired. -/
theorem Asks.congr (hflat : f.IsFlat) (hval : ∀ x ∈ f.mentions, run'.value x = run.value x)
    (hfired : run'.fired.contains f = run.fired.contains f) (h : run'.Asks f key k) :
    run.Asks f key k := by
  have hequality : ∀ l r, (∀ x ∈ (Formula.eq l r).mentions, run'.value x = run.value x) →
      run'.Asks (.eq l r) key k → run.Asks (.eq l r) key k := by
    intro l r hval h
    cases h with
    | pin => exact .pin _ _
    | pinned => exact .pinned _ _
    | left hlt =>
        have ha := hval key (by simp [Formula.mentions, Operand.key?])
        rename_i b
        have hb := hval b (by simp [Formula.mentions, Operand.key?])
        rw [hb]
        exact .left (by rwa [← ha, ← hb])
    | right hlt =>
        rename_i a
        have ha := hval a (by simp [Formula.mentions, Operand.key?])
        have hb := hval key (by simp [Formula.mentions, Operand.key?])
        rw [ha]
        exact .right (by rwa [← ha, ← hb])
  cases f with
  | eq l r => exact hequality l r hval h
  | not body => cases h
  | implies p c =>
      obtain ⟨hlive, h⟩ : run'.isLive (.implies p c) p = true ∧ run'.Asks c key k := by
        cases h with
        | passed hlive h => exact ⟨hlive, h⟩
      have hp : p.truth run'.value = p.truth run.value :=
        Formula.truth_congr fun x hx => hval x (List.mem_append.2 (.inl hx))
      refine .passed (by rwa [isLive, hp, hfired] at hlive) ?_
      cases c with
      | eq l r => exact hequality l r (fun x hx => hval x (List.mem_append.2 (.inr hx))) h
      | not body => cases h
      | implies => exact hflat.elim

/-- Committing to more formulas only makes a run ask for more. -/
theorem Asks.of_fired_subset (hval : run'.value = run.value) (hfired : run'.fired ⊆ run.fired)
    (h : run'.Asks f key k) : run.Asks f key k := by
  induction h with
  | pin key k => exact .pin key k
  | pinned key k => exact .pinned key k
  | left hlt =>
      rw [hval] at hlt ⊢
      exact .left hlt
  | right hlt =>
      rw [hval] at hlt ⊢
      exact .right hlt
  | passed hlive _ ih =>
      refine .passed ?_ ih
      unfold isLive at hlive ⊢
      rw [Bool.and_eq_true, Bool.or_eq_true, List.contains_iff_mem] at hlive ⊢
      rw [hval] at hlive
      exact ⟨hlive.1.imp_right fun hmem => hfired hmem, hlive.2⟩

/-- Where a raise moves nothing, it changes no kind. -/
theorem value_raise_of_none {id : ConstraintId} (h : (run.raise s id key k).1 = none) :
    (run.raise s id key k).2.value = run.value := by
  rcases raise_cases s id run key k with ⟨e, -⟩ | ⟨a, -, -, -, e⟩ | ⟨a, g, run', -, -, -, -, e⟩
  · rw [e]
  · rw [e]
    rfl
  · rw [e] at h
    exact absurd h (by simp)

/-- Where a raise moves an atom, it is the atom asked for, a registered one, and it moves up. -/
theorem raise_eq_some {id : ConstraintId} {moved : AtomKey} (h : (run.raise s id key k).1 = some moved) :
    moved = key ∧ s.atoms.contains key = true ∧
      run.value key < (run.raise s id key k).2.value key := by
  rcases raise_cases s id run key k with ⟨e, -⟩ | ⟨a, -, -, -, e⟩ | ⟨a, g, run', ha, -, hlt, -, e⟩
  · rw [e] at h
    exact absurd h (by simp)
  · rw [e] at h
    exact absurd h (by simp)
  · rw [e] at h ⊢
    refine ⟨(Option.some.inj h).symm, by unfold SortedMap.contains; rw [ha]; rfl, ?_⟩
    rw [value_count, value_assign, if_pos rfl]
    exact hlt

/-- Where applying a formula moves nothing, it changes no kind. -/
theorem value_apply_of_none {id : ConstraintId} (h : (run.apply s id f).1 = none) :
    (run.apply s id f).2.value = run.value := by
  rcases apply_cases s id run f with ⟨e, -⟩ | ⟨key, k, -, e⟩
  · rw [e]
  · rw [e] at h ⊢
    exact value_raise_of_none h

/-- Where applying a formula moves an atom, the formula mentions it, it moves up, and no
other atom moves. -/
theorem apply_of_some {id : ConstraintId} {moved : AtomKey} (h : (run.apply s id f).1 = some moved) :
    moved ∈ f.mentions ∧ s.atoms.contains moved = true ∧
      run.value moved < (run.apply s id f).2.value moved ∧
      ∀ x, x ≠ moved → (run.apply s id f).2.value x = run.value x := by
  rcases apply_cases s id run f with ⟨e, -⟩ | ⟨key, k, hask, e⟩
  · rw [e] at h
    exact absurd h (by simp)
  · rw [e] at h ⊢
    obtain ⟨rfl, hreg, hlt⟩ := raise_eq_some h
    exact ⟨hask.mem_mentions, hreg, hlt, fun x hx => value_raise_of_ne s id run k hx⟩

/-! ### Answers -/

/-- What it takes for a request to be answered, as far as the queue is concerned: a raise that
moves nothing answers it, and only a move of the atom asked for can undo that. -/
structure Answers (s : Store) (Q : Run → ConstraintId → AtomKey → Kind → Prop) : Prop where
  given : ∀ {run : Run} {id : ConstraintId} {key : AtomKey} {k : Kind}, s.atoms.contains key = true →
    (run.raise s id key k).1 = none → Q (run.raise s id key k).2 id key k
  kept : ∀ {run run' : Run} {id : ConstraintId} {key : AtomKey} {k : Kind}, Q run id key k →
    run'.value key = run.value key →
    (∀ site, run.refusals.contains site = true → run'.refusals.contains site = true) → Q run' id key k

/-- Whatever a constraint asks for is answered. -/
def Answered (Q : Run → ConstraintId → AtomKey → Kind → Prop) (run : Run) (c : ConstraintId × Formula) : Prop :=
  ∀ key k, run.Asks c.2 key k → Q run c.1 key k

variable {Q : Run → ConstraintId → AtomKey → Kind → Prop} {c : ConstraintId × Formula}

theorem Answered.congr (hQ : Answers s Q) (h : Answered Q run c) (hflat : c.2.IsFlat)
    (hval : ∀ x ∈ c.2.mentions, run'.value x = run.value x)
    (hfired : run'.fired.contains c.2 = run.fired.contains c.2)
    (hrefusals : ∀ site, run.refusals.contains site = true → run'.refusals.contains site = true) :
    Answered Q run' c :=
  fun key k hask => hQ.kept (h key k (hask.congr hflat hval hfired)) (hval key hask.mem_mentions) hrefusals

/-- A flat constraint is answered once applying it moves nothing. -/
theorem Answers.apply (hQ : Answers s Q) (hreg : ∀ x ∈ c.2.mentions, s.atoms.contains x = true)
    (hflat : c.2.IsFlat) (h : (run.apply s c.1 c.2).1 = none) :
    Answered Q (run.apply s c.1 c.2).2 c := by
  have hval := value_apply_of_none h
  intro key' k' hask'
  have hask : run.Asks c.2 key' k' := hask'.congr hflat (fun x _ => by rw [hval]) (by rw [fired_apply])
  rcases apply_cases s c.1 run c.2 with ⟨-, hno⟩ | ⟨key, k, hk, e⟩
  · exact absurd hask (hno key' k')
  · obtain ⟨rfl, rfl⟩ := hk.unique hask
    rw [e] at h ⊢
    exact hQ.given (hreg key hask.mem_mentions) h

/-- To be met is to be answered. -/
theorem answers_meets (s : Store) : Answers s fun run _ key k => s.Meets run.value key k where
  given _ _ := meets_raise s _ _ _ _
  kept h hval _ := h.mono (le_of_eq hval.symm)

/-! ### What is pending -/

/-- Every flat constraint in force is answered, waits for a visit, or is still to be applied in
the visit under way. -/
def PendingBut (s : Store) (Q : Run → ConstraintId → AtomKey → Kind → Prop) (run : Run)
    (queue : List AtomKey) (rest : List (ConstraintId × Formula)) : Prop :=
  ∀ c ∈ s.activeFormulas, c.2.IsFlat →
    Answered Q run c ∨ (∃ key ∈ c.2.mentions, key ∈ queue) ∨ c ∈ rest

/-- Every flat constraint in force is answered or waits for a visit. -/
def Pending (s : Store) (Q : Run → ConstraintId → AtomKey → Kind → Prop) (run : Run)
    (queue : List AtomKey) : Prop :=
  ∀ c ∈ s.activeFormulas, c.2.IsFlat → Answered Q run c ∨ ∃ key ∈ c.2.mentions, key ∈ queue

theorem Pending.answered (h : Pending s Q run []) (hc : c ∈ s.activeFormulas) (hflat : c.2.IsFlat) :
    Answered Q run c := by
  rcases h c hc hflat with hc | ⟨key, -, hnil⟩
  · exact hc
  · exact absurd hnil List.not_mem_nil

theorem mem_enqueue {x : AtomKey} : x ∈ enqueue queue key ↔ x ∈ queue ∨ x = key := by
  unfold enqueue
  split
  · rename_i h
    have hmem : key ∈ queue := by simpa using h
    exact ⟨.inl, fun hx => hx.elim id fun e => e ▸ hmem⟩
  · simp

theorem length_enqueue_le (queue : List AtomKey) (key : AtomKey) :
    (enqueue queue key).length ≤ queue.length + 1 := by
  unfold enqueue
  split <;> simp

theorem mem_foldl_enqueue (seeds queue : List AtomKey) {x : AtomKey} :
    x ∈ seeds.foldl enqueue queue ↔ x ∈ queue ∨ x ∈ seeds := by
  induction seeds generalizing queue with
  | nil => simp
  | cons key rest ih => rw [List.foldl_cons, ih, mem_enqueue, List.mem_cons, or_assoc]

/-- A run that starts by visiting every atom has everything pending. -/
theorem pending_keys (hs : s.Indexed) (run : Run) : Pending s Q run s.atoms.keys := by
  intro c hc _
  by_cases hmem : ∃ key, key ∈ c.2.mentions
  · obtain ⟨key, hkey⟩ := hmem
    exact .inr ⟨key, hkey, (SortedMap.mem_keys_iff ..).2 (hs.contains_of_mem hc hkey)⟩
  · exact .inl fun key k hask => absurd ⟨key, hask.mem_mentions⟩ hmem

/-- Atoms wait for a visit in whatever order they are queued. -/
theorem Pending.enqueued {seeds : List AtomKey} (h : Pending s Q run seeds) :
    Pending s Q run (seeds.foldl enqueue []) := by
  intro c hc hflat
  refine (h c hc hflat).imp_right ?_
  rintro ⟨key, hkey, hq⟩
  exact ⟨key, hkey, (mem_foldl_enqueue seeds []).2 (.inr hq)⟩

/-- A step takes one constraint off the list of those to be applied. -/
theorem PendingBut.step (hQ : Answers s Q) (hs : s.Indexed) {rest : List (ConstraintId × Formula)}
    (h : PendingBut s Q run queue (c :: rest)) :
    PendingBut s Q (Run.step s (run, queue) c).1 (Run.step s (run, queue) c).2 rest := by
  unfold Run.step
  cases hmove : (run.apply s c.1 c.2).1 with
  | none =>
      have hval := value_apply_of_none hmove
      have hanswered : c ∈ s.activeFormulas → c.2.IsFlat → Answered Q (run.apply s c.1 c.2).2 c :=
        fun hc hflat => hQ.apply (fun x hx => hs.contains_of_mem hc hx) hflat hmove
      have hfired := fired_apply s c.1 run c.2
      have hrefusals := contains_refusals_apply s c.1 run c.2
      generalize run.apply s c.1 c.2 = r at hmove hval hanswered hfired hrefusals
      obtain ⟨_, run'⟩ := r
      subst hmove
      intro d hd hflat
      rcases h d hd hflat with hold | hwait | hrest
      · exact .inl (hold.congr hQ hflat (fun x _ => congrFun hval x) (by rw [hfired]) hrefusals)
      · exact .inr (.inl hwait)
      · rcases List.mem_cons.1 hrest with rfl | hrest
        · exact .inl (hanswered hd hflat)
        · exact .inr (.inr hrest)
  | some moved =>
      obtain ⟨hmem, -, -, hval⟩ := apply_of_some hmove
      have hfired := fired_apply s c.1 run c.2
      have hrefusals := contains_refusals_apply s c.1 run c.2
      generalize run.apply s c.1 c.2 = r at hmove hval hfired hrefusals
      obtain ⟨_, run'⟩ := r
      subst hmove
      intro d hd hflat
      by_cases hd' : moved ∈ d.2.mentions
      · exact .inr (.inl ⟨moved, hd', mem_enqueue.2 (.inr rfl)⟩)
      rcases h d hd hflat with hold | ⟨key, hkey, hq⟩ | hrest
      · refine .inl (hold.congr hQ hflat (fun x hx => hval x ?_) (by rw [hfired]) hrefusals)
        rintro rfl
        exact hd' hx
      · exact .inr (.inl ⟨key, hkey, mem_enqueue.2 (.inl hq)⟩)
      · rcases List.mem_cons.1 hrest with rfl | hrest
        · exact absurd hmem hd'
        · exact .inr (.inr hrest)

theorem PendingBut.steps (hQ : Answers s Q) (hs : s.Indexed) {rest : List (ConstraintId × Formula)}
    (h : PendingBut s Q run queue rest) :
    Pending s Q (rest.foldl (Run.step s) (run, queue)).1 (rest.foldl (Run.step s) (run, queue)).2 := by
  induction rest generalizing run queue with
  | nil => exact fun c hc hflat => (h c hc hflat).imp_right (Or.resolve_right · List.not_mem_nil)
  | cons c rest ih => exact ih (h.step hQ hs)

/-- A visit answers what the atom taken off the queue was waiting for. -/
theorem Pending.visit (hQ : Answers s Q) (hs : s.Indexed) (h : Pending s Q run (key :: queue)) :
    Pending s Q (run.visit s key queue).1 (run.visit s key queue).2 := by
  refine PendingBut.steps hQ hs (fun c hc hflat => ?_)
  rcases h c hc hflat with hold | ⟨x, hx, hq⟩
  · exact .inl (hold.congr hQ hflat (fun _ _ => rfl) rfl fun _ hsite => hsite)
  · rcases List.mem_cons.1 hq with rfl | hq
    · exact .inr (.inr (hs.mem_formulasAt_iff.2 ⟨hc, hx⟩))
    · exact .inr (.inl ⟨x, hx, hq⟩)

/-! ### What is owed -/

/-- Every flat formula in force is settled, waits for a visit, or is still to be applied in
the visit under way. -/
def OwedBut (s : Store) (run : Run) (queue : List AtomKey) (rest : List (ConstraintId × Formula)) :
    Prop :=
  ∀ c ∈ s.activeFormulas, c.2.IsFlat →
    Settled s run c.2 ∨ (∃ key ∈ c.2.mentions, key ∈ queue) ∨ c ∈ rest

/-- Every flat formula in force is settled or waits for a visit. -/
def Owed (s : Store) (run : Run) (queue : List AtomKey) : Prop := OwedBut s run queue []

theorem owed_iff : Owed s run queue ↔ ∀ c ∈ s.activeFormulas, c.2.IsFlat →
    Settled s run c.2 ∨ ∃ key ∈ c.2.mentions, key ∈ queue := by
  unfold Owed OwedBut
  simp only [List.not_mem_nil, or_false]

/-- What is owed is what is pending as long as requests are not met. -/
theorem owed_iff_pending :
    Owed s run queue ↔ Pending s (fun run _ key k => s.Meets run.value key k) run queue := owed_iff

theorem owed_nil_iff : Owed s run [] ↔ Calm s run := by
  rw [owed_iff]
  simp only [List.not_mem_nil, and_false, exists_false, or_false, Calm]

/-- A visit settles what the atom taken off the queue was waiting for. -/
theorem Owed.visit (hs : s.Indexed) (h : Owed s run (key :: queue)) :
    Owed s (run.visit s key queue).1 (run.visit s key queue).2 :=
  owed_iff_pending.2 ((owed_iff_pending.1 h).visit (answers_meets s) hs)

/-! ### The queue runs empty -/

/-- How far some atoms are from the top of the chain, all together. -/
def room (run : Run) : List AtomKey → Nat
  | [] => 0
  | key :: keys => 3 - (run.value key).rank + room run keys

/-- How far the registered atoms are from the top of the chain. -/
def slack (s : Store) (run : Run) : Nat := room run s.atoms.keys

theorem room_le (run : Run) (keys : List AtomKey) : room run keys ≤ 3 * keys.length := by
  induction keys with
  | nil => simp [room]
  | cons key rest ih =>
      simp only [room, List.length_cons]
      omega

theorem slack_le (s : Store) (run : Run) : slack s run ≤ 3 * s.atoms.size := by
  rw [s.atoms.size_eq]
  exact room_le run _

theorem room_congr (h : run'.value = run.value) (keys : List AtomKey) :
    room run' keys = room run keys := by
  induction keys with
  | nil => rfl
  | cons key rest ih => simp only [room, ih, h]

theorem room_antitone (hle : ∀ x, run.value x ≤ run'.value x) (keys : List AtomKey) :
    room run' keys ≤ room run keys := by
  induction keys with
  | nil => simp [room]
  | cons key rest ih =>
      have hkey := Kind.le_def.1 (hle key)
      simp only [room]
      omega

/-- A move uses up some of the room. -/
theorem slack_lt {moved : AtomKey} (hreg : s.atoms.contains moved = true)
    (hlt : run.value moved < run'.value moved) (hval : ∀ x, x ≠ moved → run'.value x = run.value x) :
    slack s run' < slack s run := by
  have hle : ∀ x, run.value x ≤ run'.value x := by
    intro x
    by_cases hx : x = moved
    · exact hx ▸ le_of_lt hlt
    · exact le_of_eq (hval x hx).symm
  have hmem := (SortedMap.mem_keys_iff s.atoms moved).2 hreg
  unfold slack
  generalize s.atoms.keys = keys at hmem
  induction keys with
  | nil => exact absurd hmem List.not_mem_nil
  | cons key rest ih =>
      simp only [room]
      rcases List.mem_cons.1 hmem with rfl | hmem
      · have hrest := room_antitone hle rest
        have hrank := Kind.lt_def.1 hlt
        have htop := Kind.rank_le_three (run'.value moved)
        omega
      · have hrest := ih hmem
        have hkey := Kind.le_def.1 (hle key)
        omega

/-- What a step puts on the queue, it takes off the room left. -/
theorem step_measure (c : ConstraintId × Formula) :
    (Run.step s (run, queue) c).2.length + slack s (Run.step s (run, queue) c).1 ≤
      queue.length + slack s run := by
  unfold Run.step
  cases hmove : (run.apply s c.1 c.2).1 with
  | none =>
      have hval := value_apply_of_none hmove
      generalize run.apply s c.1 c.2 = r at hmove hval
      obtain ⟨_, run'⟩ := r
      subst hmove
      exact le_of_eq (congrArg _ (room_congr hval _))
  | some moved =>
      obtain ⟨-, hreg, hlt, hval⟩ := apply_of_some hmove
      generalize run.apply s c.1 c.2 = r at hmove hlt hval
      obtain ⟨_, run'⟩ := r
      subst hmove
      have hslack : slack s run' < slack s run := slack_lt hreg hlt hval
      have hlength := length_enqueue_le queue moved
      show (enqueue queue moved).length + slack s run' ≤ _
      omega

theorem visit_measure (s : Store) (run : Run) (key : AtomKey) (queue : List AtomKey) :
    (run.visit s key queue).2.length + slack s (run.visit s key queue).1 ≤ queue.length + slack s run := by
  have hsteps : ∀ (l : List (ConstraintId × Formula)) (state : Run × List AtomKey),
      (l.foldl (Run.step s) state).2.length + slack s (l.foldl (Run.step s) state).1 ≤
        state.2.length + slack s state.1 := by
    intro l
    induction l with
    | nil => exact fun state => le_refl _
    | cons c rest ih => exact fun state => le_trans (ih _) (step_measure c)
  have hvalue : ({ run with iterations := run.iterations + 1 } : Run).value = run.value := rfl
  have hslack : slack s { run with iterations := run.iterations + 1 } = slack s run :=
    room_congr hvalue _
  rw [← hslack]
  exact hsteps (s.formulasAt key) ({ run with iterations := run.iterations + 1 }, queue)

theorem Owed.drain (hs : s.Indexed) (fuel : Nat) (h : Owed s run queue)
    (hfuel : queue.length + slack s run ≤ fuel) : Owed s (run.drain s fuel queue) [] := by
  induction fuel generalizing run queue with
  | zero =>
      cases queue with
      | nil => exact h
      | cons key rest => simp at hfuel
  | succ fuel ih =>
      cases queue with
      | nil => exact h
      | cons key rest =>
          have hmeasure := visit_measure s run key rest
          rw [List.length_cons] at hfuel
          exact ih (h.visit hs) (le_trans hmeasure (by omega))

/-- Propagation settles what was settled before or mentions a seed. -/
theorem Owed.propagate (hs : s.Indexed) {seeds : List AtomKey} (h : Owed s run seeds) :
    Calm s (run.propagate s seeds) := by
  have hqueue : Owed s run (seeds.foldl enqueue []) := owed_iff_pending.2 (owed_iff_pending.1 h).enqueued
  have hslack := slack_le s run
  exact owed_nil_iff.1 (hqueue.drain hs _ (by omega))

/-! ### Draining is made of acts -/

variable {blocked : List Formula}

theorem acts_step {c : ConstraintId × Formula} (hc : c ∈ s.activeFormulas) :
    Acts s blocked run (Run.step s (run, queue) c).1 := by
  have hstep : (Run.step s (run, queue) c).1 = (run.apply s c.1 c.2).2 := by
    unfold Run.step
    rcases run.apply s c.1 c.2 with ⟨_ | moved, run'⟩ <;> rfl
  rw [hstep]
  rcases apply_cases s c.1 run c.2 with ⟨e, -⟩ | ⟨key, k, hask, e⟩
  · rw [e]
  · rw [e]
    exact .single (.raise hc hask)

theorem acts_visit (hs : s.Indexed) (key : AtomKey) (queue : List AtomKey) :
    Acts s blocked run (run.visit s key queue).1 := by
  have hsteps : ∀ (l : List (ConstraintId × Formula)) (state : Run × List AtomKey),
      (∀ c ∈ l, c ∈ s.activeFormulas) → Acts s blocked state.1 (l.foldl (Run.step s) state).1 := by
    intro l
    induction l with
    | nil => exact fun state _ => .refl
    | cons c rest ih =>
        exact fun state hl => .trans (acts_step (hl c List.mem_cons_self))
          (ih _ fun d hd => hl d (List.mem_cons_of_mem c hd))
  have hvisit := hsteps (s.formulasAt key) ({ run with iterations := run.iterations + 1 }, queue)
  exact .head (.visit run) (hvisit fun c hc => (hs.mem_formulasAt_iff.1 hc).1)

theorem acts_drain (hs : s.Indexed) (fuel : Nat) (run : Run) (queue : List AtomKey) :
    Acts s blocked run (run.drain s fuel queue) := by
  induction fuel generalizing run queue with
  | zero =>
      cases queue <;> exact .refl
  | succ fuel ih =>
      cases queue with
      | nil => exact .refl
      | cons key rest => exact .trans (acts_visit hs key rest) (ih _ _)

theorem acts_propagate (hs : s.Indexed) (run : Run) (seeds : List AtomKey) :
    Acts s blocked run (run.propagate s seeds) :=
  acts_drain hs _ _ _

end Run

end PointerKinds
