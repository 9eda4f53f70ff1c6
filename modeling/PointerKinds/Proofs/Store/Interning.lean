/-
Constraints by number.

A formula spells its parts out, and a constraint is known by its number; so a caller who
creates a negation or an implication names its parts by their numbers, and what the caller
asks for is not a formula but a shape.  Shapes and numbers determine each other: whoever asks
for the same shape gets the same number, and no later call changes what stands there.

That nothing can go round in circles is the other half.  The parts of a shape were there
before it was created, so their numbers are smaller, and following numbers to parts, as one
does to print or to evaluate a constraint, comes to an end on every constraint and gives what
its formula gives.

The reason of a constraint is kept over all its creations, so it is stated over the list of
them: every run of calls comes with the list of what was created in it.
-/
import PointerKinds.Proofs.Store.Persistence
import PointerKinds.Proofs.Store.Reasons

namespace PointerKinds

namespace Explanation

/-- The explanation that is kept of several: the first with a reason of its own, or else the first. -/
def kept (whys : List Explanation) : Option Explanation :=
  (whys.find? fun why => !why.isDefault).or whys.head?

/-- Being explained once more keeps what is kept of all explanations. -/
theorem kept_concat {whys : List Explanation} {e why : Explanation} (h : kept whys = some e) :
    kept (whys ++ [why]) = some (e.orLater why) := by
  unfold kept at h ⊢
  rw [List.find?_append]
  cases hfind : whys.find? fun why => !why.isDefault with
  | some w =>
      have hown : w.isDefault = false := by simpa using List.find?_some hfind
      rw [hfind, Option.some_or, Option.some.injEq] at h
      subst h
      simp [orLater, hown]
  | none =>
      rw [hfind, Option.none_or] at h
      have hdefault : e.isDefault = true := by
        simpa using List.find?_eq_none.1 hfind e (List.mem_of_head? h)
      rw [List.find?_singleton, List.head?_append, h]
      cases hwhy : why.isDefault <;> simp [orLater, hdefault, hwhy]

end Explanation

instance : Std.OrientedOrd Operand where
  eq_swap {a b} := by
    cases a with
    | atom x =>
        cases b with
        | atom y => exact (Std.OrientedCmp.eq_swap : compare x y = (compare y x).swap)
        | kind l => rfl
    | kind k =>
        cases b with
        | atom y => rfl
        | kind l => exact (Std.OrientedCmp.eq_swap : compare k l = (compare l k).swap)

instance : Std.LawfulEqOrd Operand where
  compare_self {a} := by
    cases a with
    | atom x => exact (Std.ReflCmp.compare_self : compare x x = .eq)
    | kind k => exact (Std.ReflCmp.compare_self : compare k k = .eq)
  eq_of_compare {a b} h := by
    cases a with
    | atom x =>
        cases b with
        | atom y =>
            have hxy : compare x y = .eq := h
            rw [Std.LawfulEqCmp.eq_of_compare hxy]
        | kind l => cases h
    | kind k =>
        cases b with
        | atom y => cases h
        | kind l =>
            have hkl : compare k l = .eq := h
            rw [Std.LawfulEqCmp.eq_of_compare hkl]

/-! ### Shapes -/

/-- What a constraint says, with its parts given by their numbers. -/
inductive Shape where
  | eq (lhs rhs : Operand)
  | not (body : ConstraintId)
  | implies (premise conclusion : ConstraintId)
deriving DecidableEq

namespace Shape

/-- The equality of two operands, the lesser operand first. -/
def equal (a b : Operand) : Shape := if compare a b = .gt then eq b a else eq a b

theorem equal_comm (a b : Operand) : equal a b = equal b a := by
  have hswap : compare b a = (compare a b).swap := Std.OrientedCmp.eq_swap
  unfold equal
  rw [hswap]
  cases h : compare a b with
  | lt => rfl
  | eq =>
      rw [Std.LawfulEqCmp.eq_of_compare h]
      rfl
  | gt => rfl

/-- Equalities have the same shape exactly if they have the same operands, on whichever sides. -/
theorem equal_eq_iff {a b a' b' : Operand} :
    equal a b = equal a' b' ↔ a = a' ∧ b = b' ∨ a = b' ∧ b = a' := by
  constructor
  · unfold equal
    intro h
    split at h <;> split at h <;> cases h <;> simp
  · rintro (⟨rfl, rfl⟩ | ⟨rfl, rfl⟩)
    · rfl
    · exact equal_comm a b

/-- The numbers of the parts. -/
def parts : Shape → List ConstraintId
  | eq _ _ => []
  | not body => [body]
  | implies premise conclusion => [premise, conclusion]

/-- The formula of a shape, if its parts exist. -/
def formula? (s : Store) : Shape → Option Formula
  | eq lhs rhs => some (.eq lhs rhs)
  | not body => (s.formula? body).map .not
  | implies premise conclusion =>
    (s.formula? premise).bind fun p => (s.formula? conclusion).map fun c => .implies p c

end Shape

namespace Store

/-- The shape of the constraint with a number. -/
def shape? (s : Store) (id : ConstraintId) : Option Shape :=
  (s.formula? id).bind fun
    | .eq lhs rhs => some (.eq lhs rhs)
    | .not body => (s.find? body).map .not
    | .implies premise conclusion =>
      (s.find? premise).bind fun p => (s.find? conclusion).map fun c => .implies p c

/-! ### Creations -/

/-- The shape that a call asks for, and why, if it asks for one. -/
def Operation.request? : Operation → Option (Shape × Explanation)
  | .createEq a b why => some (.equal a b, why)
  | .createNot body => some (.not body, {})
  | .createImplies premise conclusion => some (.implies premise conclusion, {})
  | _ => none

/-- A shape that was asked for, why, and the number it was given. -/
structure Creation where
  shape : Shape
  why : Explanation
  id : ConstraintId
deriving DecidableEq

/-- What a call creates.  A shape whose parts do not exist is not created. -/
def creation? (s : Store) (call : Operation) : Option Creation :=
  match call.request?, (s.perform call).1 with
  | some (shape, why), .made id => some { shape, why, id }
  | _, _ => none

/-- What some calls create, one after the other. -/
def creations (s : Store) : List Operation → List Creation
  | [] => []
  | call :: rest => (s.creation? call).toList ++ (s.perform call).2.creations rest

variable {s t : Store} {id id' : ConstraintId} {f : Formula} {shape shape' : Shape} {call : Operation}
  {d : Constraint}

theorem Reachable.formula?_inj (h : s.Reachable) (hf : s.formula? id = some f) (hf' : s.formula? id' = some f) :
    id = id' := by
  obtain ⟨t, ht, harena⟩ := h.exists_built
  rw [← formula?_congr harena] at hf hf'
  exact ht.formula?_inj hf hf'

/-- No two constraints of a reachable store say the same, so what says a formula stands for it. -/
theorem Reachable.find?_eq_some_iff (h : s.Reachable) : s.find? f = some id ↔ s.formula? id = some f :=
  Store.find?_eq_some_iff.trans <| and_iff_left_of_imp fun hf _ hi he => Nat.ne_of_lt hi (h.formula?_inj he hf)

/-- A constraint has the shape that its formula has. -/
theorem Reachable.shape?_eq_some_iff (h : s.Reachable) :
    s.shape? id = some shape ↔ ∃ f, s.formula? id = some f ∧ shape.formula? s = some f := by
  unfold shape?
  rw [Option.bind_eq_some_iff]
  refine exists_congr fun f => and_congr_right fun _ => ?_
  cases f <;> cases shape
  case eq.eq => constructor <;> (intro he; cases he; rfl)
  all_goals simp [Shape.formula?, Option.bind_eq_some_iff, h.find?_eq_some_iff]

theorem Reachable.shape?_inj (h : s.Reachable) (hid : s.shape? id = some shape) (hid' : s.shape? id' = some shape) :
    id = id' := by
  obtain ⟨f, hf, hshape⟩ := h.shape?_eq_some_iff.1 hid
  obtain ⟨f', hf', hshape'⟩ := h.shape?_eq_some_iff.1 hid'
  obtain rfl : f = f' := Option.some.inj (hshape.symm.trans hshape')
  exact h.formula?_inj hf hf'

/-! ### One call -/

/-- A call creates a shape whose parts exist, by interning its formula, or creates nothing. -/
theorem creation?_cases (s : Store) (call : Operation) :
    (s.creation? call = none ∧ (s.perform call).2.arena = s.arena) ∨
    ∃ shape d, shape.formula? s = some d.formula ∧ (s.perform call).2 = (s.intern d).2 ∧
      s.creation? call = some { shape, why := d.why, id := (s.intern d).1 } := by
  cases call with
  | createEq a b why =>
      refine .inr ⟨.equal a b, { formula := .equal a b, why }, ?_, rfl, rfl⟩
      unfold Shape.equal Formula.equal
      split <;> rfl
  | createNot body =>
      cases hbody : s.formula? body with
      | none => exact .inl (by simp [creation?, Operation.request?, perform, createNot?, hbody])
      | some f =>
          exact .inr ⟨.not body, { formula := .not f },
            by simp [creation?, Operation.request?, perform, createNot?, hbody, Shape.formula?]⟩
  | createImplies premise conclusion =>
      cases hpremise : s.formula? premise with
      | none => exact .inl (by simp [creation?, Operation.request?, perform, createImplies?, hpremise])
      | some p =>
          cases hconclusion : s.formula? conclusion with
          | none =>
              exact .inl (by simp [creation?, Operation.request?, perform, createImplies?, hpremise, hconclusion])
          | some c =>
              exact .inr ⟨.implies premise conclusion, { formula := .implies p c }, by
                simp [creation?, Operation.request?, perform, createImplies?, hpremise, hconclusion,
                  Shape.formula?]⟩
  | add id => exact .inl ⟨rfl, arena_add s id⟩
  | remove id => exact .inl ⟨rfl, arena_remove s id⟩
  | erase id => exact .inl ⟨rfl, (erase_frame s id).1⟩
  | restore key => exact .inl ⟨rfl, (restore_frame s key).1⟩
  | makeNonWild key region => exact .inl ⟨rfl, arena_makeNonWild s key region⟩
  | eraseReason reason => exact .inl ⟨rfl, (eraseAll_frame s _).1⟩
  | _ => exact .inl ⟨rfl, rfl⟩

/-! ### Runs of calls -/

/-- The explanations that the creations of a number came with. -/
def whysFor (log : List Creation) (id : ConstraintId) : List Explanation :=
  (log.filter fun a => a.id = id).map (·.why)

/-- A store holds what was created, under the shapes that were asked for. -/
structure Logged (s : Store) (log : List Creation) : Prop where
  /-- A number stands for the shape it was given for. -/
  shape : ∀ a ∈ log, s.shape? a.id = some a.shape
  /-- Every constraint was created. -/
  complete : ∀ id, id < s.arena.length → ∃ a ∈ log, a.id = id
  /-- Parts come before what they are parts of. -/
  smaller : ∀ id shape, s.shape? id = some shape → ∀ part ∈ shape.parts, part < id
  /-- A constraint has the explanation that is kept of all its creations. -/
  why : ∀ id c, s.constraint? id = some c → Explanation.kept (whysFor log id) = some c.why

theorem exists_formula? (h : id < s.arena.length) : ∃ f, s.formula? id = some f :=
  ⟨s.arena[id].formula, by rw [formula?, constraint?, List.getElem?_eq_getElem h, Option.map_some]⟩

/-- The parts of a shape with a formula exist. -/
theorem lt_of_formula? (h : shape.formula? s = some f) : ∀ part ∈ shape.parts, part < s.arena.length := by
  intro part hpart
  cases shape with
  | eq lhs rhs => exact absurd hpart List.not_mem_nil
  | not body =>
      obtain ⟨g, hg, -⟩ := Option.map_eq_some_iff.1 h
      rw [List.mem_singleton.1 hpart]
      exact formula?_lt hg
  | implies premise conclusion =>
      obtain ⟨p, hp, h⟩ := Option.bind_eq_some_iff.1 h
      obtain ⟨c, hc, -⟩ := Option.map_eq_some_iff.1 h
      rcases List.mem_cons.1 hpart with rfl | hpart
      · exact formula?_lt hp
      · rw [List.mem_singleton.1 hpart]
        exact formula?_lt hc

/-- A shape keeps its formula where constraints keep theirs. -/
theorem shape_formula?_mono (hkeep : ∀ id f, s.formula? id = some f → t.formula? id = some f)
    (h : shape.formula? s = some f) : shape.formula? t = some f := by
  cases shape with
  | eq lhs rhs => exact h
  | not body =>
      obtain ⟨g, hg, rfl⟩ := Option.map_eq_some_iff.1 h
      simp only [Shape.formula?, hkeep _ _ hg, Option.map_some]
  | implies premise conclusion =>
      obtain ⟨p, hp, h⟩ := Option.bind_eq_some_iff.1 h
      obtain ⟨c, hc, rfl⟩ := Option.map_eq_some_iff.1 h
      simp only [Shape.formula?, hkeep _ _ hp, hkeep _ _ hc, Option.bind_some, Option.map_some]

theorem Reachable.shape?_mono (hs : s.Reachable) (ht : t.Reachable)
    (hkeep : ∀ id f, s.formula? id = some f → t.formula? id = some f) (h : s.shape? id = some shape) :
    t.shape? id = some shape := by
  obtain ⟨f, hf, hshape⟩ := hs.shape?_eq_some_iff.1 h
  exact ht.shape?_eq_some_iff.2 ⟨f, hkeep id f hf, shape_formula?_mono hkeep hshape⟩

theorem formula?_intern_of_some (hf : s.formula? id = some f) : (s.intern d).2.formula? id = some f :=
  (formula?_intern s d (formula?_lt hf)).trans hf

theorem Reachable.constraint?_intern (h : s.Reachable) {c : Constraint}
    (hc : (s.intern d).2.constraint? id = some c) :
    (s.constraint? id = some c ∧ c.formula ≠ d.formula) ∨
    (∃ c₀, s.constraint? id = some c₀ ∧ c₀.formula = d.formula ∧ c = c₀.explainedBy d) ∨
    ((∀ i, s.formula? i ≠ some d.formula) ∧ c = d) := by
  obtain ⟨t, ht, harena⟩ := h.exists_built
  have hsame : ∀ i, t.constraint? i = s.constraint? i := fun i => by rw [constraint?, constraint?, harena]
  rw [constraint?, ← arena_intern_congr harena] at hc
  simpa only [hsame, formula?_congr harena] using ht.constraint?_intern hc

variable {log : List Creation}

theorem whysFor_concat (log : List Creation) (a : Creation) (id : ConstraintId) :
    whysFor (log ++ [a]) id = whysFor log id ++ if a.id = id then [a.why] else [] := by
  unfold whysFor
  rw [List.filter_append, List.map_append]
  by_cases ha : a.id = id <;> simp [ha]

/-- Nothing is logged for a number that has not been given. -/
theorem Logged.whysFor_eq_nil (h : Logged s log) (hnone : s.constraint? id = none) : whysFor log id = [] := by
  refine List.map_eq_nil_iff.2 (List.filter_eq_nil_iff.2 fun a ha hid => ?_)
  have hshape := h.shape a ha
  rw [of_decide_eq_true hid, shape?, formula?, hnone] at hshape
  exact absurd hshape (by simp)

theorem Logged.kept_intern (h : Logged s log) (hs : s.Reachable) (ht : (s.intern d).2.Reachable) {a : Creation}
    (hwhy : a.why = d.why) (ha : a.id = (s.intern d).1) {c : Constraint}
    (hc : (s.intern d).2.constraint? id = some c) :
    Explanation.kept (whysFor (log ++ [a]) id) = some c.why := by
  have hself : c.formula = d.formula → a.id = id := fun hf =>
    ha.trans (ht.formula?_inj (formula?_intern_self s d) (hf ▸ formula?_eq_of_constraint? hc))
  rw [whysFor_concat]
  rcases hs.constraint?_intern hc with ⟨hc₀, hne⟩ | ⟨c₀, hc₀, hf₀, rfl⟩ | ⟨hnone, rfl⟩
  · have hid : a.id ≠ id := by
      rintro rfl
      have hf := formula?_intern_self s d
      rw [← ha, formula?_eq_of_constraint? hc] at hf
      exact hne (Option.some.inj hf)
    rw [if_neg hid, List.append_nil]
    exact h.why id c hc₀
  · rw [if_pos (hself hf₀), hwhy]
    exact Explanation.kept_concat (h.why id c₀ hc₀)
  · have hid : s.constraint? id = none := by
      cases hc₀ : s.constraint? id with
      | none => rfl
      | some c₀ =>
          have hf := formula?_intern_of_some (d := c) (formula?_eq_of_constraint? hc₀)
          rw [formula?_eq_of_constraint? hc] at hf
          exact absurd ((formula?_eq_of_constraint? hc₀).trans hf.symm) (hnone id)
    rw [h.whysFor_eq_nil hid, if_pos (hself rfl), hwhy, List.nil_append]
    cases hd : c.why.isDefault <;> simp [Explanation.kept, hd]

/-- Interning the formula of a shape logs the shape. -/
theorem Logged.intern (h : Logged s log) (hs : s.Reachable) (ht : (s.intern d).2.Reachable)
    (hshape : shape.formula? s = some d.formula) :
    Logged (s.intern d).2 (log ++ [{ shape, why := d.why, id := (s.intern d).1 }]) := by
  have hnew : (s.intern d).2.shape? (s.intern d).1 = some shape :=
    ht.shape?_eq_some_iff.2 ⟨_, formula?_intern_self s d, shape_formula?_mono (fun _ _ => formula?_intern_of_some) hshape⟩
  have hold : ∀ {id shape}, s.shape? id = some shape → (s.intern d).2.shape? id = some shape :=
    hs.shape?_mono ht fun _ _ => formula?_intern_of_some
  have hcases : ∀ id, id < (s.intern d).2.arena.length → id < s.arena.length ∨ id = (s.intern d).1 := by
    intro id hid
    obtain ⟨f, hf⟩ := exists_formula? hid
    rcases formula?_intern_cases hf with hf' | rfl
    · exact .inl (formula?_lt hf')
    · exact .inr (ht.formula?_inj hf (formula?_intern_self s d))
  constructor
  · intro a ha
    rcases List.mem_append.1 ha with ha | ha
    · exact hold (h.shape a ha)
    · rw [List.mem_singleton.1 ha]
      exact hnew
  · intro id hid
    rcases hcases id hid with hlt | rfl
    · obtain ⟨a, ha, he⟩ := h.complete id hlt
      exact ⟨a, List.mem_append_left _ ha, he⟩
    · exact ⟨_, List.mem_append_right _ List.mem_cons_self, rfl⟩
  · intro id shape' hid part hpart
    by_cases hlt : id < s.arena.length
    · obtain ⟨a, ha, rfl⟩ := h.complete id hlt
      obtain rfl := Option.some.inj ((hold (h.shape a ha)).symm.trans hid)
      exact h.smaller a.id a.shape (h.shape a ha) part hpart
    · obtain ⟨f, hf, -⟩ := ht.shape?_eq_some_iff.1 hid
      obtain rfl := (hcases id (formula?_lt hf)).resolve_left hlt
      obtain rfl := Option.some.inj (hnew.symm.trans hid)
      exact Nat.lt_of_lt_of_le (lt_of_formula? hshape part hpart) (Nat.not_lt.1 hlt)
  · exact fun id c hc => h.kept_intern hs ht rfl rfl hc

theorem Logged.perform (h : Logged s log) (hs : s.Reachable) (call : Operation) :
    Logged (s.perform call).2 (log ++ (s.creation? call).toList) := by
  have ht : (s.perform call).2.Reachable := hs.perform call
  rcases creation?_cases s call with ⟨hnone, harena⟩ | ⟨shape, d, hshape, hperform, hcreation⟩
  · rw [hnone, Option.toList_none, List.append_nil]
    have hkeep : ∀ id, (s.perform call).2.formula? id = s.formula? id := formula?_congr harena
    have hback : ∀ {id shape}, (s.perform call).2.shape? id = some shape → s.shape? id = some shape :=
      ht.shape?_mono hs fun id f hf => hkeep id ▸ hf
    refine ⟨fun a ha => ?_, fun id hid => ?_, fun id shape hid => ?_, fun id c hc => ?_⟩
    · exact hs.shape?_mono ht (fun id f hf => (hkeep id).trans hf) (h.shape a ha)
    · exact h.complete id (harena ▸ hid)
    · exact h.smaller id shape (hback hid)
    · rw [constraint?, harena] at hc
      exact h.why id c hc
  · rw [hperform] at ht ⊢
    rw [hcreation, Option.toList_some]
    exact h.intern hs ht hshape

/-- Whatever is called, the store holds what was created. -/
theorem Logged.performAll (h : Logged s log) (hs : s.Reachable) (calls : List Operation) :
    Logged (s.performAll calls) (log ++ s.creations calls) := by
  induction calls generalizing s log with
  | nil => simpa [creations, Store.performAll] using h
  | cons call rest ih =>
      have hrest := ih (h.perform hs call) (hs.perform call)
      rwa [List.append_assoc] at hrest

theorem logged_empty : Logged {} [] := by
  refine ⟨fun a ha => absurd ha List.not_mem_nil, fun id hid => absurd hid (Nat.not_lt_zero id), ?_, ?_⟩
  · intro id shape hid
    exact absurd hid (by simp [shape?, formula?, constraint?])
  · intro id c hc
    exact absurd hc (by simp [constraint?])

/-! ### Reading a constraint by its number -/

/-- How constraints are read: what an equality gives, and what a negation and an implication make
of what their parts give. -/
structure Reading (α : Type) where
  eq : Operand → Operand → α
  not : α → α
  implies : α → α → α

namespace Reading

variable {α : Type}

/-- What a reading gives for a formula. -/
def ofFormula (r : Reading α) : Formula → α
  | .eq lhs rhs => r.eq lhs rhs
  | .not body => r.not (r.ofFormula body)
  | .implies premise conclusion => r.implies (r.ofFormula premise) (r.ofFormula conclusion)

/-- The mentions of atoms. -/
def mentions : Reading (List AtomKey) where
  eq lhs rhs := lhs.key?.toList ++ rhs.key?.toList
  not body := body
  implies premise conclusion := premise ++ conclusion

/-- The spelling. -/
def text : Reading String where
  eq lhs rhs := lhs.text ++ " == " ++ rhs.text
  not body := "~(" ++ body ++ ")"
  implies premise conclusion := "(" ++ premise ++ ") => (" ++ conclusion ++ ")"

/-- The truth in the strict and in the generous sense. -/
def verdict (env : AtomKey → Kind) : Reading (Truth × Bool) where
  eq lhs rhs := (Formula.equalityTruth env lhs rhs, Formula.equalityHolds env lhs rhs)
  not body := (body.1.negate, body.1 != .yes)
  implies premise conclusion :=
    (match premise.1 with
      | .no => .yes
      | .yes => if conclusion.2 then .yes else .no
      | .maybe => if conclusion.2 then .yes else .maybe,
      premise.1 != .yes || conclusion.2)

theorem mentions_ofFormula (f : Formula) : mentions.ofFormula f = f.mentions := by
  induction f with
  | eq lhs rhs => rfl
  | not body ih => exact ih
  | implies premise conclusion ihp ihc => exact congrArg₂ (· ++ ·) ihp ihc

theorem text_ofFormula (f : Formula) : text.ofFormula f = f.text := by
  induction f with
  | eq lhs rhs => rfl
  | not body ih =>
      rw [ofFormula, ih, Formula.text]
      rfl
  | implies premise conclusion ihp ihc =>
      rw [ofFormula, ihp, ihc, Formula.text]
      rfl

theorem verdict_ofFormula (env : AtomKey → Kind) (f : Formula) :
    (verdict env).ofFormula f = (f.truth env, f.holds env) := by
  induction f with
  | eq lhs rhs => rw [ofFormula, verdict, Formula.truth, Formula.holds]
  | not body ih =>
      rw [ofFormula, ih, verdict, Formula.truth, Formula.holds]
  | implies premise conclusion ihp ihc =>
      rw [ofFormula, ihp, ihc, Formula.truth, Formula.holds]
      cases premise.truth env <;> rfl

end Reading

/-- Reads a constraint by following the numbers of its parts, to some depth. -/
def readWithin {α : Type} (s : Store) (r : Reading α) : Nat → ConstraintId → Option α
  | 0, _ => none
  | depth + 1, id =>
    match s.shape? id with
    | some (.eq lhs rhs) => some (r.eq lhs rhs)
    | some (.not body) => (s.readWithin r depth body).map r.not
    | some (.implies premise conclusion) =>
      (s.readWithin r depth premise).bind fun p => (s.readWithin r depth conclusion).map (r.implies p)
    | none => none

/-- Following numbers ends, and gives what the formula gives: a constraint's number is depth enough. -/
theorem Logged.readWithin_eq {α : Type} (h : Logged s log) (hs : s.Reachable) (r : Reading α) {depth : Nat}
    (hdepth : id < depth) (hf : s.formula? id = some f) : s.readWithin r depth id = some (r.ofFormula f) := by
  induction depth generalizing id f with
  | zero => exact absurd hdepth (Nat.not_lt_zero id)
  | succ depth ih =>
      obtain ⟨a, ha, rfl⟩ := h.complete id (formula?_lt hf)
      have hshape := h.shape a ha
      have hsmaller := h.smaller a.id a.shape hshape
      obtain ⟨f', hf', hformula⟩ := hs.shape?_eq_some_iff.1 hshape
      obtain rfl : f = f' := Option.some.inj (hf.symm.trans hf')
      have hpart : ∀ part ∈ a.shape.parts, part < depth := fun part hp =>
        Nat.lt_of_lt_of_le (hsmaller part hp) (Nat.le_of_lt_succ hdepth)
      unfold readWithin
      rw [hshape]
      cases hsh : a.shape with
      | eq lhs rhs =>
          rw [hsh] at hformula
          obtain rfl := Option.some.inj hformula
          rfl
      | not body =>
          rw [hsh] at hformula hpart
          obtain ⟨g, hg, rfl⟩ := Option.map_eq_some_iff.1 hformula
          simp only [ih (hpart body List.mem_cons_self) hg, Option.map_some, Reading.ofFormula]
      | implies premise conclusion =>
          rw [hsh] at hformula hpart
          obtain ⟨p, hp, hformula⟩ := Option.bind_eq_some_iff.1 hformula
          obtain ⟨c, hc, rfl⟩ := Option.map_eq_some_iff.1 hformula
          have hpremise := ih (hpart premise List.mem_cons_self) hp
          have hconclusion := ih (hpart conclusion (List.mem_cons_of_mem _ List.mem_cons_self)) hc
          simp only [hpremise, hconclusion, Option.bind_some, Option.map_some, Reading.ofFormula]

/-- A call that asks for a shape of parts that exist creates it. -/
theorem exists_creation {why : Explanation} (hrequest : call.request? = some (shape, why))
    (hparts : ∀ part ∈ shape.parts, part < s.arena.length) :
    ∃ id, s.creation? call = some { shape, why, id } := by
  have hexists : ∀ part ∈ shape.parts, ∃ f, s.formula? part = some f := fun part hp => exists_formula? (hparts part hp)
  cases call with
  | createEq a b why' =>
      obtain ⟨rfl, rfl⟩ := Prod.mk.inj (Option.some.inj hrequest)
      exact ⟨_, rfl⟩
  | createNot body =>
      obtain ⟨rfl, rfl⟩ := Prod.mk.inj (Option.some.inj hrequest)
      obtain ⟨f, hf⟩ := hexists body List.mem_cons_self
      refine ⟨(s.intern { formula := .not f }).1, ?_⟩
      simp only [creation?, Operation.request?, perform, createNot?, hf, Option.map_some]
  | createImplies premise conclusion =>
      obtain ⟨rfl, rfl⟩ := Prod.mk.inj (Option.some.inj hrequest)
      obtain ⟨p, hp⟩ := hexists premise List.mem_cons_self
      obtain ⟨c, hc⟩ := hexists conclusion (List.mem_cons_of_mem _ List.mem_cons_self)
      refine ⟨(s.intern { formula := .implies p c }).1, ?_⟩
      simp only [creation?, Operation.request?, perform, createImplies?, hp, hc, Option.bind_some, Option.map_some]
  | _ => cases hrequest

theorem formula?_performAll (hf : s.formula? id = some f) (calls : List Operation) :
    (s.performAll calls).formula? id = some f := by
  induction calls generalizing s with
  | nil => exact hf
  | cons call rest ih => exact ih ((formula?_perform (formula?_lt hf) call).trans hf)

/-- **Interning is sound over whole runs.**  A call that asks for a shape of existing parts creates
it.  Two creations get the same number exactly if they ask for the same shape, where the sides of
an equality do not matter, and the number stands for that shape whatever is called later.  Every
constraint has been created, its parts have smaller numbers, and following the numbers of parts
ends and gives its mentions, its text and its truth in both senses.  Its explanation is that of
the first of its creations that had a reason, or else of the first. -/
theorem interning_performAll (calls : List Operation) :
    let s := performAll {} calls
    let log := creations {} calls
    (∀ (call : Operation) (shape : Shape) (why : Explanation), call.request? = some (shape, why) →
      (∀ part ∈ shape.parts, part < s.arena.length) → ∃ id, s.creation? call = some { shape, why, id }) ∧
    (∀ a ∈ log, ∀ b ∈ log, a.id = b.id ↔ a.shape = b.shape) ∧
    (∀ a b a' b', Shape.equal a b = Shape.equal a' b' ↔ a = a' ∧ b = b' ∨ a = b' ∧ b = a') ∧
    (∀ a ∈ log, ∀ later, (s.performAll later).shape? a.id = some a.shape) ∧
    (∀ id, id < s.arena.length ↔ ∃ a ∈ log, a.id = id) ∧
    (∀ a ∈ log, ∀ part ∈ a.shape.parts, part < a.id) ∧
    (∀ id c, s.constraint? id = some c → ∀ depth, id < depth →
      (s.readWithin .mentions depth id).map .ofList = some c.formula.atoms ∧
      s.readWithin .text depth id = some c.formula.text ∧
      ∀ env, s.readWithin (.verdict env) depth id = some (c.formula.truth env, c.formula.holds env)) ∧
    ∀ id c, s.constraint? id = some c → Explanation.kept (whysFor log id) = some c.why := by
  have hs : (performAll {} calls).Reachable := reachable_performAll calls
  have hlog : Logged (performAll {} calls) (creations {} calls) := logged_empty.performAll .empty calls
  refine ⟨fun call shape why => exists_creation, fun a ha b hb => ?_, fun a b a' b' => Shape.equal_eq_iff,
    fun a ha later => ?_, fun id => ?_,
    fun a ha => hlog.smaller a.id a.shape (hlog.shape a ha), fun id c hc depth hdepth => ?_, hlog.why⟩
  · constructor
    · intro he
      exact Option.some.inj ((hlog.shape a ha).symm.trans (he ▸ hlog.shape b hb))
    · intro he
      exact hs.shape?_inj (hlog.shape a ha) (he ▸ hlog.shape b hb)
  · exact hs.shape?_mono (hs.performAll later) (fun id f hf => formula?_performAll hf later) (hlog.shape a ha)
  · refine ⟨hlog.complete id, ?_⟩
    rintro ⟨a, ha, rfl⟩
    obtain ⟨f, hf, -⟩ := hs.shape?_eq_some_iff.1 (hlog.shape a ha)
    exact formula?_lt hf
  · have hf := formula?_eq_of_constraint? hc
    refine ⟨?_, ?_, fun env => ?_⟩
    · rw [hlog.readWithin_eq hs .mentions hdepth hf, Reading.mentions_ofFormula]
      rfl
    · rw [hlog.readWithin_eq hs .text hdepth hf, Reading.text_ofFormula]
    · rw [hlog.readWithin_eq hs (.verdict env) hdepth hf, Reading.verdict_ofFormula]

end Store

end PointerKinds
