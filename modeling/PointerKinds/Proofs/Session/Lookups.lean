/-
Whatever is looked up by number is found.

A store knows constraints by number, a program knows variables by number, and neither table has
an answer for a number out of range.  Nothing tests whether a number is in range.  Here every
function that is handed a number looks it up before it does anything with it: a constraint with
all that its formula is put together from when it is imposed, erased or put back in force, a
variable with all its parts when a node is resolved, a function called or a declaration filed.
A number that is not found ends everything.

What a store has just created or found again it can look up, whatever else is in it; so posting
never stops.  Beyond that, constraints are found in a store whose books are in order, and so are
variables in a program that has filed what it keeps.

A run of the solver creates nothing, and the store it runs over stays what it is.  So a survey
before it starts covers all that it looks up; and in a store that passes, the lists that the
solver goes through leave no number out.
-/
import PointerKinds.Proofs.Session.Books
import PointerKinds.Proofs.Solver.Assertions

namespace PointerKinds

/-- Something to stop at. -/
inductive Breach where
  /-- A unit out of turn, or a diagnostic that does not fit. -/
  | fault (fault : Fault)
  /-- An assignment of the solver. -/
  | panic (panic : Panic)
  /-- A number that is no constraint's. -/
  | constraint (id : ConstraintId)
  /-- A part of a formula that is no constraint. -/
  | part (f : Formula)
  /-- A number that is no variable's. -/
  | variable (id : VariableId)
  /-- There are no numbers left, for atoms or for constraints. -/
  | exhausted
deriving DecidableEq

namespace Breach

variable {α : Type} {breach : α → Breach} {passes : α → Bool} {l : List α}

/-- Stops at the first of several things that does not pass. -/
def stopAt (breach : α → Breach) (passes : α → Bool) (l : List α) : Except Breach Unit :=
  match l.find? fun a => !passes a with
  | some a => .error (breach a)
  | none => .ok ()

theorem stopAt_eq_ok_iff : stopAt breach passes l = .ok () ↔ ∀ a ∈ l, passes a = true := by
  unfold stopAt
  cases hfind : l.find? fun a => !passes a with
  | none =>
      refine iff_of_true rfl fun a ha => ?_
      simpa using List.find?_eq_none.1 hfind a ha
  | some a =>
      refine iff_of_false nofun fun h => ?_
      have hfails := List.find?_some hfind
      rw [h a (List.mem_of_find?_eq_some hfind)] at hfails
      exact nomatch hfails

end Breach

namespace Formula

/-- All that a formula is put together from, at any depth. -/
def inner : Formula → List Formula
  | eq .. => []
  | not body => body :: body.inner
  | implies premise conclusion => premise :: conclusion :: (premise.inner ++ conclusion.inner)

theorem inner_equal (a b : Operand) : (equal a b).inner = [] := by
  unfold equal
  split <;> rfl

end Formula

namespace Store

/-! ### Looking up constraints -/

/-- Looks up a constraint, and all that its formula is put together from. -/
def lookUp (s : Store) (id : ConstraintId) : Except Breach Unit :=
  match s.formula? id with
  | some f => Breach.stopAt .part (fun g => (s.find? g).isSome) f.inner
  | none => .error (.constraint id)

/-- Looks up every number that a store keeps. -/
def survey (s : Store) : Except Breach Unit := do
  Breach.stopAt .constraint (fun id => (s.constraint? id).isSome) s.idsKept
  Breach.stopAt .part (fun f => (s.find? f).isSome) s.partsKept

/-- Does something with a constraint that was looked up. -/
def lookingUp (step : Store → ConstraintId → Store) (s : Store) (id : ConstraintId) : Except Breach Store := do
  s.lookUp id
  return step s id

/-- Creates a constraint and imposes it. -/
def guardedPost (s : Store) (c : Constraint) : Except Breach Store :=
  (s.intern c).2.lookingUp add (s.intern c).1

/-- Lets a kind flow from one atom to another. -/
def guardedFlow (s : Store) (source target : AtomKey) (k : Kind) : Except Breach Store := do
  let premise := Formula.equal (.atom source) (.kind k)
  let conclusion := Formula.equal (.atom target) (.kind k)
  let (p, s) := s.intern { formula := premise }
  s.lookUp p
  let (c, s) := s.intern { formula := conclusion }
  s.lookUp c
  s.guardedPost { formula := .implies premise conclusion }

/-- Imposes a demand. -/
def guardedImpose (s : Store) : Demand → Except Breach Store
  | .pin key k why => s.guardedPost { formula := .equal (.atom key) (.kind k), why }
  | .join a b => s.guardedPost { formula := .equal (.atom a) (.atom b) }
  | .flow source target => flowingKinds.foldlM (·.guardedFlow source target ·) s

/-- Imposes demands, one after the other. -/
def guardedImposeAll (s : Store) (l : List Demand) : Except Breach Store := l.foldlM guardedImpose s

variable {s t : Store} {id : ConstraintId} {f : Formula} {key : AtomKey}

theorem isSome_find?_iff : (s.find? f).isSome = true ↔ s.Knows f := by
  rw [Option.isSome_iff_exists]
  refine ⟨fun ⟨id, hid⟩ => ⟨id, (find?_eq_some_iff.1 hid).1⟩, fun ⟨id, hid⟩ => ?_⟩
  obtain ⟨c, hc, rfl⟩ := Option.map_eq_some_iff.1 hid
  refine Option.isSome_iff_exists.1 ?_
  unfold Store.find?
  rw [List.findIdx?_isSome, List.any_eq_true]
  exact ⟨c, List.mem_of_getElem? hc, decide_eq_true rfl⟩

theorem lookUp_eq_ok_iff (hf : s.formula? id = some f) : s.lookUp id = .ok () ↔ ∀ g ∈ f.inner, s.Knows g := by
  unfold lookUp
  rw [hf]
  exact Breach.stopAt_eq_ok_iff.trans (forall₂_congr fun g _ => isSome_find?_iff)

/-- What is looked up depends on the constraints alone. -/
theorem lookUp_congr (h : t.arena = s.arena) (id : ConstraintId) : t.lookUp id = s.lookUp id := by
  unfold lookUp formula? constraint? Store.find?
  rw [h]

theorem foldlM_lookingUp {step : Store → ConstraintId → Store} (harena : ∀ s id, (step s id).arena = s.arena)
    {ids : List ConstraintId} (h : ∀ id ∈ ids, s.lookUp id = .ok ()) :
    ids.foldlM (lookingUp step) s = .ok (ids.foldl step s) := by
  induction ids generalizing s with
  | nil => rfl
  | cons id rest ih =>
      obtain ⟨hid, hrest⟩ := List.forall_mem_cons.1 h
      rw [List.foldlM_cons, lookingUp, hid]
      exact ih fun id' hid' => (lookUp_congr (harena s id) id').trans (hrest id' hid')

/-! ### Posting -/

/-- What was interned just now is found, if what it is put together from is. -/
theorem lookUp_intern {c : Constraint} (h : ∀ g ∈ c.formula.inner, s.Knows g) :
    (s.intern c).2.lookUp (s.intern c).1 = .ok () :=
  (lookUp_eq_ok_iff (formula?_intern_self s c)).2 fun g hg => knows_intern.2 (.inl (h g hg))

theorem guardedPost_eq {c : Constraint} (h : ∀ g ∈ c.formula.inner, s.Knows g) :
    s.guardedPost c = .ok (s.post c).2 := by
  unfold guardedPost lookingUp
  rw [lookUp_intern h]
  rfl

theorem guardedPost_equal (s : Store) (a b : Operand) (why : Explanation) :
    s.guardedPost { formula := .equal a b, why } = .ok (s.addEq a b why).2 :=
  guardedPost_eq fun g hg => absurd hg (by simp [Formula.inner_equal])

theorem guardedFlow_eq (s : Store) (source target : AtomKey) (k : Kind) :
    s.guardedFlow source target k = .ok (s.addFlow source target k) := by
  have hlevel : ∀ (s : Store) (a b : Operand),
      (s.intern { formula := .equal a b }).2.lookUp (s.intern { formula := .equal a b }).1 = .ok () := fun s a b =>
    lookUp_intern fun g hg => absurd hg (by simp [Formula.inner_equal])
  unfold guardedFlow
  simp only [hlevel, bind, Except.bind]
  -- The parts of the implication are the two equalities that were interned before it.
  refine guardedPost_eq fun g hg => ?_
  simp only [Formula.inner, Formula.inner_equal, List.append_nil, List.mem_cons, List.not_mem_nil, or_false] at hg
  rcases hg with rfl | rfl
  · exact knows_intern.2 (.inl (knows_intern.2 (.inr rfl)))
  · exact knows_intern.2 (.inr rfl)

theorem guardedImpose_eq (s : Store) (d : Demand) : s.guardedImpose d = .ok (s.impose d) := by
  cases d with
  | pin key k why => exact guardedPost_equal ..
  | join a b => exact guardedPost_equal ..
  | flow source target =>
      simp only [guardedImpose]
      rw [show (fun (s : Store) k => s.guardedFlow source target k) = fun s k => pure (s.addFlow source target k) from
        funext₂ fun s k => guardedFlow_eq s source target k]
      exact List.foldlM_pure

theorem guardedImposeAll_eq (s : Store) (l : List Demand) : s.guardedImposeAll l = .ok (s.imposeAll l) := by
  unfold guardedImposeAll
  rw [show guardedImpose = fun s d => pure (s.impose d) from funext₂ guardedImpose_eq]
  exact List.foldlM_pure

/-! ### Books in order -/

/-- A store whose books are in order: what it keeps are numbers of constraints, and what these are
put together from are constraints. -/
structure Booked (s : Store) : Prop where
  indexed : s.Indexed
  caused : ∀ key id, s.forcedBy.get? key = some id → id < s.arena.length
  parts : s.PartsKnown

theorem PartsKnown.inner (h : s.PartsKnown) (hf : s.Knows f) : ∀ g ∈ f.inner, s.Knows g := by
  have hpart : ∀ {f g : Formula}, s.Knows f → g ∈ f.parts → s.Knows g := fun ⟨id, hid⟩ hg => by
    obtain ⟨c, hc, rfl⟩ := Option.map_eq_some_iff.1 hid
    exact h _ (List.mem_flatMap.2 ⟨c, List.mem_of_getElem? hc, hg⟩)
  induction f with
  | eq => exact fun g hg => absurd hg List.not_mem_nil
  | not body ih =>
      have hbody := hpart hf (List.mem_singleton_self body)
      exact List.forall_mem_cons.2 ⟨hbody, ih hbody⟩
  | implies premise conclusion ihp ihc =>
      have hpremise := hpart hf List.mem_cons_self
      have hconclusion := hpart hf (List.mem_cons_of_mem _ (List.mem_singleton_self conclusion))
      exact List.forall_mem_cons.2 ⟨hpremise, List.forall_mem_cons.2 ⟨hconclusion,
        List.forall_mem_append.2 ⟨ihp hpremise, ihc hconclusion⟩⟩⟩

theorem Booked.lookUp (h : s.Booked) (hid : id < s.arena.length) : s.lookUp id = .ok () := by
  have hf : s.formula? id = some s.arena[id].formula := by
    unfold formula? constraint?
    rw [List.getElem?_eq_getElem hid]
    rfl
  exact (lookUp_eq_ok_iff hf).2 (h.parts.inner ⟨id, hf⟩)

/-- A survey passes exactly if everything that is kept is there. -/
theorem survey_eq_ok_iff : s.survey = .ok () ↔ (∀ id ∈ s.idsKept, ∃ c, s.constraint? id = some c) ∧ s.PartsKnown := by
  have hids : Breach.stopAt .constraint (fun id => (s.constraint? id).isSome) s.idsKept = .ok () ↔
      ∀ id ∈ s.idsKept, ∃ c, s.constraint? id = some c :=
    Breach.stopAt_eq_ok_iff.trans (forall₂_congr fun _ _ => Option.isSome_iff_exists)
  have hparts : Breach.stopAt .part (fun f => (s.find? f).isSome) s.partsKept = .ok () ↔ s.PartsKnown :=
    Breach.stopAt_eq_ok_iff.trans (forall₂_congr fun _ _ => isSome_find?_iff)
  rw [← hids, ← hparts]
  unfold survey
  cases Breach.stopAt .constraint (fun id => (s.constraint? id).isSome) s.idsKept with
  | error => exact iff_of_false nofun fun h => nomatch h.1
  | ok => exact (and_iff_right rfl).symm

theorem Booked.survey (h : s.Booked) : s.survey = .ok () :=
  survey_eq_ok_iff.2 ⟨fun id hid => ⟨_, List.getElem?_eq_getElem (h.indexed.lt_of_mem_idsKept h.caused id hid)⟩,
    h.parts⟩

/-- Where a survey passes, the solver goes through all constraints that an atom counts as in force,
and through all that are in force. -/
theorem formulas_of_survey (h : s.survey = .ok ()) :
    (∀ key a, s.atoms.get? key = some a → (s.formulasAt key).map Prod.fst = a.active.toList) ∧
      s.activeFormulas.map Prod.fst = s.active := by
  have hall : ∀ ids : List ConstraintId, ids ⊆ s.idsKept →
      (ids.filterMap fun id => (s.formula? id).map (id, ·)).map Prod.fst = ids := by
    intro ids hids
    induction ids with
    | nil => rfl
    | cons id rest ih =>
        obtain ⟨hid, hrest⟩ := List.cons_subset.1 hids
        obtain ⟨c, hc⟩ := (survey_eq_ok_iff.1 h).1 id hid
        have hf : s.formula? id = some c.formula := congrArg (Option.map Constraint.formula) hc
        rw [List.filterMap_cons_some (by rw [hf]; rfl), List.map_cons, ih hrest]
  refine ⟨fun key a ha => ?_, hall _ fun id hid => ?_⟩
  · unfold formulasAt
    rw [ha]
    refine hall _ fun id hid => List.mem_append_right _ (List.mem_flatMap.2 ⟨a, ?_, List.mem_append_left _ hid⟩)
    exact SortedMap.mem_values_iff.2 ⟨key, ha⟩
  · exact List.mem_append_left _ (List.mem_append_left _ (List.mem_append_left _ (List.mem_filter.1 hid).1))

/-! ### Edits keep the books in order -/

theorem Booked.of_arena (h : s.Booked) (ht : t.Indexed) (harena : t.arena = s.arena)
    (hcaused : ∀ key id, t.forcedBy.get? key = some id → id < t.arena.length) : t.Booked :=
  ⟨ht, hcaused, h.parts.of_arena harena⟩

theorem Booked.eraseAll (h : s.Booked) (ids : List ConstraintId) : (ids.foldl Store.erase s).Booked := by
  obtain ⟨harena, -, -, hcauses⟩ := eraseAll_frame s ids
  refine h.of_arena (h.indexed.eraseAll ids) harena fun key id hid => ?_
  rw [harena]
  exact h.caused key id (hcauses ▸ hid)

theorem Booked.reset (h : s.Booked) : s.reset.Booked :=
  h.of_arena h.indexed.reset rfl fun _ _ hid => nomatch hid

/-- To put back in force what an atom remembers, and to start anew. -/
theorem Booked.reset_restore (h : s.Booked) (key : AtomKey) : (s.restore key).reset.Booked :=
  h.of_arena (h.indexed.restore key).reset (restore_frame s key).1 fun _ _ hid => nomatch hid

theorem Booked.released (h : s.Booked) (key : AtomKey) (keys : List AtomKey) : (s.released key keys).Booked := by
  have herased := h.eraseAll (s.wildForcing key)
  refine herased.of_arena (herased.indexed.lower keys) rfl fun x id hid => ?_
  rw [forcedBy_released] at hid
  split at hid
  · exact nomatch hid
  · exact herased.caused x id ((eraseAll_frame s _).2.2.2.symm ▸ hid)

theorem lt_of_mem_wildForcing (hid : id ∈ s.wildForcing key) : id < s.arena.length := by
  obtain ⟨c, hc, rfl⟩ := List.mem_map.1 hid
  exact formula?_lt (mem_formulasAt.1 (List.mem_filter.1 hc).1).2

theorem lt_of_mem_wildWithReason {reason : String} (hid : id ∈ s.wildWithReason reason) : id < s.arena.length := by
  have htest := (List.mem_filter.1 hid).2
  split at htest
  · rename_i c hc
    exact formula?_lt (congrArg (Option.map Constraint.formula) hc)
  · exact absurd htest Bool.false_ne_true

theorem Booked.lt_of_mem_restorable (h : s.Booked) (hid : id ∈ s.restorable key) : id < s.arena.length := by
  obtain ⟨he, -⟩ := (h.indexed.erased key id).1 (mem_restorable.1 hid)
  exact h.indexed.known id (h.indexed.suspended id he)

theorem Booked.foldlM_erase (h : s.Booked) {ids : List ConstraintId} (hids : ∀ id ∈ ids, id < s.arena.length) :
    ids.foldlM (lookingUp Store.erase) s = .ok (ids.foldl Store.erase s) :=
  foldlM_lookingUp (fun s id => (erase_frame s id).1) fun id hid => h.lookUp (hids id hid)

theorem Booked.foldlM_reinstate (h : s.Booked) (key : AtomKey) :
    (s.restorable key).foldlM (lookingUp reinstate) (s.modifyAtom key (·.restoreAll)) = .ok (s.restore key) := by
  have harena : ∀ (t : Store) id, (reinstate t id).arena = t.arena := fun t id =>
    (modifyAtomsOf_frame { t with erased := t.erased.erase id } id (·.restore id)).1
  refine foldlM_lookingUp harena fun id hid => ?_
  have hframe : (s.modifyAtom key (·.restoreAll)).arena = s.arena := rfl
  exact (lookUp_congr hframe id).trans (h.lookUp (h.lt_of_mem_restorable hid))

/-! ### Solving and editing -/

/-- Solves a store that passes a survey, and tests every assignment. -/
def surveyedSolve (s : Store) : Except Breach (Outcome × Store) := do
  s.survey
  s.guardedSolve.mapError .panic

/-- Suspends constraints. -/
def guardedEraseAll (s : Store) (ids : List ConstraintId) : Except Breach Store := ids.foldlM (lookingUp erase) s

/-- Erases what holds an atom unchecked and solves a region around it again. -/
def surveyedMakeNonWild (s : Store) (key : AtomKey) (region : List AtomKey) : Except Breach (List AtomKey × Store) :=
  if s.value key = .wild then do
    s.survey
    let s ← s.guardedEraseAll (s.wildForcing key)
    let region := (SortedSet.ofList (key :: region.filter s.atoms.contains)).toList
    let lost := region.filter fun k => s.value k = .wild
    let s := s.lower region
    s.survey
    let s := s.commit (← (s.guardedSolution region).mapError .panic).run
    return (lost.filter fun k => s.value k ≠ .wild, s)
  else .ok ([], s)

/-- Erases what makes atoms unchecked for a reason, and solves from scratch. -/
def surveyedEraseReason (s : Store) (reason : String) : Except Breach (Outcome × Store) := do
  s.survey
  (← s.guardedEraseAll (s.wildWithReason reason)).reset.surveyedSolve

/-- Puts every erased constraint that an atom remembers back in force, and solves from scratch. -/
def surveyedRestore (s : Store) (key : AtomKey) : Except Breach (Outcome × Store) := do
  (← (s.restorable key).foldlM (lookingUp reinstate) (s.modifyAtom key (·.restoreAll))).reset.surveyedSolve

theorem Booked.surveyedSolve_eq (h : s.Booked) : s.surveyedSolve = .ok s.solve := by
  unfold surveyedSolve
  rw [h.survey, guardedSolve_eq]
  rfl

theorem Booked.surveyedMakeNonWild_eq (h : s.Booked) (key : AtomKey) (region : List AtomKey) :
    s.surveyedMakeNonWild key region = .ok (s.makeNonWild key region) := by
  have herase : s.guardedEraseAll (s.wildForcing key) = .ok ((s.wildForcing key).foldl erase s) :=
    h.foldlM_erase fun _ hid => lt_of_mem_wildForcing hid
  have hsurvey : ∀ keys, (((s.wildForcing key).foldl erase s).lower keys).survey = .ok () := fun keys =>
    (h.released key keys).survey
  unfold surveyedMakeNonWild makeNonWild
  split
  · simp only [h.survey, herase, bind, Except.bind, hsurvey, guardedSolution_eq]
    rfl
  · rfl

theorem Booked.surveyedEraseReason_eq (h : s.Booked) (reason : String) :
    s.surveyedEraseReason reason = .ok (s.eraseReason reason).2 := by
  have herase : s.guardedEraseAll (s.wildWithReason reason) = .ok ((s.wildWithReason reason).foldl erase s) :=
    h.foldlM_erase fun _ hid => lt_of_mem_wildWithReason hid
  unfold surveyedEraseReason
  rw [h.survey, herase]
  exact (h.eraseAll _).reset.surveyedSolve_eq

theorem Booked.surveyedRestore_eq (h : s.Booked) (key : AtomKey) :
    s.surveyedRestore key = .ok (s.restore key).reset.solve := by
  unfold surveyedRestore
  rw [h.foldlM_reinstate key]
  exact (h.reset_restore key).surveyedSolve_eq

end Store

end PointerKinds
