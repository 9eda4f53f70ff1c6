/-
All declarations of a global are one entity.

Linking relates only neighbours in the list of what was registered under a name.  Neighbours
of one shape come to be alike at all levels, and others are given up, both.  So one step on
the list is of one of two kinds, and either kind can be followed by either: whoever is alike
to what was given up is given up too.  That makes the relation between neighbours one between
any two on the list, a variable without levels or a function among them or not; and as soon as
shapes differ anywhere on the list, there is no variable that no such difference reaches.

The list itself is followed along the walk.  Names are listed once, every variable on a list
was declared with all its parts, and what is registered stays registered.
-/
import Mathlib.Data.List.Chain
import Mathlib.Data.List.Pairwise
import PointerKinds.Proofs.Session.Events
import PointerKinds.Proofs.Session.Functions
import PointerKinds.Proofs.Session.Registry

namespace PointerKinds

/-! ### Neighbours -/

namespace Variable

variable {E : AtomKey → Kind} {u v w : Variable} {vs : List Variable}

/-- The kinds of the levels of an object, outermost first. -/
def levelKinds? (E : AtomKey → Kind) (v : Variable) : Option (List Kind) := v.object?.map fun o => o.atoms.map E

/-- A pointer is an object with a level. -/
def IsPointer (v : Variable) : Prop := ∃ o x, v.object? = some o ∧ o.outer? = some x

/-- Two objects are alike at all levels, or neither variable is one. -/
def Alike (E : AtomKey → Kind) (v w : Variable) : Prop := v.levelKinds? E = w.levelKinds? E

/-- The outermost level, if there is one, is unchecked. -/
def GivenUp (E : AtomKey → Kind) (v : Variable) : Prop :=
  ∀ ks ∈ v.levelKinds? E, ∀ k ∈ ks.head?, k = .wild

/-- Variables that were made to agree: of one shape and alike at all levels, or both given up. -/
def Settled (E : AtomKey → Kind) (v w : Variable) : Prop :=
  if v.sameShape false w then v.Alike E w else v.GivenUp E ∧ w.GivenUp E

/-- Variables of one entity.  Unlike two that were made to agree, two of one shape may be given up
without being alike further in. -/
def OneEntity (E : AtomKey → Kind) (v w : Variable) : Prop :=
  v.sameShape false w = true ∧ v.Alike E w ∨ v.GivenUp E ∧ w.GivenUp E

theorem Alike.givenUp_iff (h : v.Alike E w) : v.GivenUp E ↔ w.GivenUp E := by
  unfold Alike at h
  unfold GivenUp
  rw [h]

theorem levelKinds?_eq {o : Object} (hv : v.object? = some o) : v.levelKinds? E = some (o.atoms.map E) := by
  rw [levelKinds?, hv, Option.map_some]

theorem GivenUp.outer {o : Object} {x : AtomKey} (h : v.GivenUp E) (hv : v.object? = some o)
    (hx : o.outer? = some x) : E x = .wild :=
  h _ (levelKinds?_eq hv) (E x) (by rw [List.head?_map, ← Object.outer?, hx, Option.map_some, Option.mem_some_iff])

/-- The outermost atoms of one entity have one kind. -/
theorem OneEntity.outer_eq {a b : Object} {x y : AtomKey} (h : v.OneEntity E w) (hv : v.object? = some a)
    (hw : w.object? = some b) (hx : a.outer? = some x) (hy : b.outer? = some y) : E x = E y := by
  rcases h with ⟨-, halike⟩ | ⟨hgiven, hgiven'⟩
  · rw [Alike, levelKinds?_eq hv, levelKinds?_eq hw, Option.some.injEq] at halike
    have hhead := congrArg List.head? halike
    rw [List.head?_map, List.head?_map, ← Object.outer?, ← Object.outer?, hx, hy] at hhead
    exact Option.some.inj hhead
  · rw [hgiven.outer hv hx, hgiven'.outer hw hy]

/-- What has the shape of a pointer is one. -/
theorem IsPointer.of_sameShape (h : v.IsPointer) (hshape : v.sameShape false w = true) : w.IsPointer := by
  obtain ⟨a, x, ha, hx⟩ := h
  obtain ⟨b, hb⟩ := exists_object_of_sameShape hshape ha
  have hdepth := (eq_of_sameLevels (sameLevels_of_sameShape hshape ha hb)).1
  have hlength : a.atoms.length = b.atoms.length := by
    rw [Demand.length_atoms, Demand.length_atoms, hdepth]
  cases hatoms : b.atoms with
  | nil =>
      rw [hatoms, List.length_nil, List.length_eq_zero_iff] at hlength
      rw [Object.outer?, hlength] at hx
      exact absurd hx (by simp)
  | cons y rest => exact ⟨b, y, hb, by rw [Object.outer?, hatoms, List.head?_cons]⟩

theorem Settled.oneEntity (h : v.Settled E w) : v.OneEntity E w := by
  unfold Settled at h
  split at h
  · next hshape => exact .inl ⟨hshape, h⟩
  · exact .inr h

theorem OneEntity.refl (E : AtomKey → Kind) (v : Variable) : v.OneEntity E v :=
  .inl ⟨sameShape_refl false v, rfl⟩

theorem OneEntity.symm (h : v.OneEntity E w) : w.OneEntity E v := by
  rcases h with ⟨hshape, halike⟩ | ⟨hv, hw⟩
  · exact .inl ⟨sameShape_comm false w v ▸ hshape, Eq.symm halike⟩
  · exact .inr ⟨hw, hv⟩

theorem OneEntity.trans (h : u.OneEntity E v) (h' : v.OneEntity E w) : u.OneEntity E w := by
  rcases h with ⟨hshape, halike⟩ | ⟨hu, hv⟩
  · rcases h' with ⟨hshape', halike'⟩ | ⟨hv, hw⟩
    · exact .inl ⟨sameShape_trans hshape hshape', Eq.trans halike halike'⟩
    · exact .inr ⟨halike.givenUp_iff.2 hv, hw⟩
  · rcases h' with ⟨-, halike'⟩ | ⟨-, hw⟩
    · exact .inr ⟨hu, halike'.givenUp_iff.1 hv⟩
    · exact .inr ⟨hu, hw⟩

/-- Where neighbours were made to agree, any two are one entity. -/
theorem oneEntity_of_isChain (h : vs.IsChain (Settled E)) : ∀ v ∈ vs, ∀ w ∈ vs, v.OneEntity E w := by
  have : Trans (OneEntity E) (OneEntity E) (OneEntity E) := ⟨OneEntity.trans⟩
  have : Std.Symm (OneEntity E) := ⟨fun _ _ => OneEntity.symm⟩
  have hpairs : vs.Pairwise (OneEntity E) := (h.imp fun _ _ => Settled.oneEntity).pairwise
  exact fun v hv w hw => hpairs.forall_of_forall (fun x _ => .refl E x) hv hw

/-- If all are of one shape, they are alike at all levels. -/
theorem alike_of_isChain (h : vs.IsChain (Settled E))
    (hshape : ∀ v ∈ vs, ∀ w ∈ vs, v.sameShape false w = true) : ∀ v ∈ vs, ∀ w ∈ vs, v.Alike E w := by
  have : Trans (Alike E) (Alike E) (Alike E) := ⟨Eq.trans⟩
  have : Std.Symm (Alike E) := ⟨fun _ _ => Eq.symm⟩
  have hchain : vs.IsChain (Alike E) := h.imp_of_mem_imp fun v w hv hw hvw => by
    rwa [Settled, if_pos (hshape v hv w hw)] at hvw
  exact fun v hv w hw => List.Pairwise.forall_of_forall (R := Alike E) (fun _ _ => rfl) hchain.pairwise hv hw

/-- If two are of different shapes, all are given up: nobody is of the shape of both. -/
theorem givenUp_of_isChain (h : vs.IsChain (Settled E)) (hv : v ∈ vs) (hw : w ∈ vs)
    (hshape : v.sameShape false w = false) : ∀ u ∈ vs, u.GivenUp E := by
  intro u hu
  rcases oneEntity_of_isChain h u hu v hv with ⟨huv, -⟩ | ⟨hgiven, -⟩
  · rcases oneEntity_of_isChain h u hu w hw with ⟨huw, -⟩ | ⟨hgiven, -⟩
    · rw [sameShape_comm] at huv
      rw [sameShape_trans huv huw] at hshape
      cases hshape
    · exact hgiven
  · exact hgiven

end Variable

namespace Demand

variable {E : AtomKey → Kind} {why : Explanation} {v w : Variable} {vs : List Variable}

theorem AllMet.givenUp (h : AllMet E (outerAll why [v, w])) : v.GivenUp E ∧ w.GivenUp E := by
  have hgiven : ∀ u ∈ [v, w], u.GivenUp E := by
    intro u hu ks hks k hk
    obtain ⟨o, ho, rfl⟩ := Option.map_eq_some_iff.1 hks
    rw [List.head?_map, Option.mem_def, Option.map_eq_some_iff] at hk
    obtain ⟨x, hx, rfl⟩ := hk
    exact (h.of_flatMap hu).of_outer x (Variable.mem_outerAtoms ho hx)
  exact ⟨hgiven v (by simp), hgiven w (by simp)⟩

theorem AllMet.settled (h : AllMet E (agree why v w)) (hid : v.id = w.id → v = w) : v.Settled E w := by
  unfold Variable.Settled
  split
  · next hshape =>
      unfold Variable.Alike Variable.levelKinds?
      cases hv : v.object? with
      | some a =>
          obtain ⟨b, hb⟩ := Variable.exists_object_of_sameShape hshape hv
          rw [hb, Option.map_some, Option.map_some, h.of_agree hshape hid hv hb]
      | none =>
          cases hw : w.object? with
          | none => rfl
          | some b =>
              rw [Variable.sameShape_comm] at hshape
              obtain ⟨a, ha⟩ := Variable.exists_object_of_sameShape hshape hw
              exact absurd (hv.symm.trans ha) (by simp)
  · next hshape =>
      have hshape : v.sameShape false w = false := Bool.eq_false_iff.2 hshape
      by_cases hobject : v.isFunction = false ∨ w.isFunction = false
      · rw [agree_eq_outerAll why hshape hid hobject] at h
        exact h.givenUp
      -- Functions have no levels.
      · have hfunction : ∀ u : Variable, ¬ u.isFunction = false → u.GivenUp E := by
          intro u hu ks hks
          cases u with
          | object | code => exact absurd rfl hu
          | function => cases hks
        obtain ⟨hv, hw⟩ := not_or.1 hobject
        exact ⟨hfunction v hv, hfunction w hw⟩

/-- What is met on a list of neighbours. -/
theorem AllMet.isChain (h : AllMet E (neighbours why vs))
    (hid : ∀ v ∈ vs, ∀ w ∈ vs, v.id = w.id → v = w) : vs.IsChain (Variable.Settled E) := by
  induction vs with
  | nil => exact .nil
  | cons v rest ih =>
      cases rest with
      | nil => exact .singleton v
      | cons w rest =>
          simp only [neighbours] at h
          refine List.isChain_cons_cons.2 ⟨h.left.settled ?_, ih h.right ?_⟩
          · exact hid v List.mem_cons_self w (List.mem_cons_of_mem v List.mem_cons_self)
          · exact fun x hx y hy => hid x (List.mem_cons_of_mem v hx) y (List.mem_cons_of_mem v hy)

end Demand

/-! ### Registration -/

namespace Program

variable {p q : Program} {name : String} {v w : Variable}

/-- A variable is registered as a declaration of a global. -/
def Registers (p : Program) (name : String) (v : Variable) : Prop :=
  ∃ vs, (name, vs) ∈ p.globals ∧ v ∈ vs.values

/-- Every global is listed once, with variables that were declared with all their parts, by number. -/
structure ListsGlobals (p : Program) : Prop where
  nodup : (p.globals.map (·.1)).Nodup
  keyed : ∀ name vs, (name, vs) ∈ p.globals → ∀ id v, vs.get? id = some v → v.id = id
  files : ∀ name vs, (name, vs) ∈ p.globals → ∀ id v, vs.get? id = some v → p.system.Files v

/-! #### One more declaration -/

variable {entries : List (String × VariableSet)} {n : String} {vs ws : VariableSet}

theorem names_addGlobal (name : String) (v : Variable) (entries : List (String × VariableSet)) :
    (addGlobal name v entries).map (·.1) =
      if name ∈ entries.map (·.1) then entries.map (·.1) else entries.map (·.1) ++ [name] := by
  induction entries with
  | nil => rfl
  | cons g rest ih =>
      unfold addGlobal
      by_cases hg : g.1 = name
      · simp [hg]
      · have hne : ¬ name = g.1 := fun e => hg e.symm
        simp only [if_neg hg, List.map_cons, ih, List.mem_cons, hne, false_or]
        split <;> rfl

/-- An entry was there, or one more declaration was put into it. -/
theorem mem_addGlobal (h : (n, vs) ∈ addGlobal name v entries) :
    (n, vs) ∈ entries ∨ ∃ ws, vs = ws.insert v.id v ∧ (ws = ∅ ∨ (n, ws) ∈ entries) := by
  induction entries with
  | nil =>
      obtain ⟨rfl, rfl⟩ := Prod.mk.inj (List.mem_singleton.1 h)
      exact .inr ⟨∅, rfl, .inl rfl⟩
  | cons g rest ih =>
      unfold addGlobal at h
      by_cases hg : g.1 = name
      · rw [if_pos hg] at h
        rcases List.mem_cons.1 h with he | h
        · obtain ⟨rfl, rfl⟩ := Prod.mk.inj he
          exact .inr ⟨g.2, rfl, .inr List.mem_cons_self⟩
        · exact .inl (List.mem_cons_of_mem g h)
      · rw [if_neg hg] at h
        rcases List.mem_cons.1 h with he | h
        · rw [he]
          exact .inl List.mem_cons_self
        · rcases ih h with h | ⟨ws, rfl, hws⟩
          · exact .inl (List.mem_cons_of_mem g h)
          · exact .inr ⟨ws, rfl, hws.imp_right (List.mem_cons_of_mem g)⟩

/-- An entry stays, with one more declaration perhaps. -/
theorem exists_mem_addGlobal (name : String) (v : Variable) (h : (n, ws) ∈ entries) :
    ∃ vs, (n, vs) ∈ addGlobal name v entries ∧ (vs = ws ∨ vs = ws.insert v.id v) := by
  induction entries with
  | nil => exact absurd h List.not_mem_nil
  | cons g rest ih =>
      unfold addGlobal
      by_cases hg : g.1 = name
      · rw [if_pos hg]
        rcases List.mem_cons.1 h with rfl | h
        · exact ⟨_, List.mem_cons_self, .inr rfl⟩
        · exact ⟨ws, List.mem_cons_of_mem _ h, .inl rfl⟩
      · rw [if_neg hg]
        rcases List.mem_cons.1 h with rfl | h
        · exact ⟨_, List.mem_cons_self, .inl rfl⟩
        · obtain ⟨vs, hvs, hkeeps⟩ := ih h
          exact ⟨vs, List.mem_cons_of_mem _ hvs, hkeeps⟩

/-- What is declared is in the entry of its name. -/
theorem exists_mem_addGlobal_self (name : String) (v : Variable) (entries : List (String × VariableSet)) :
    ∃ ws : VariableSet, (name, ws.insert v.id v) ∈ addGlobal name v entries := by
  induction entries with
  | nil => exact ⟨∅, List.mem_cons_self⟩
  | cons g rest ih =>
      unfold addGlobal
      by_cases hg : g.1 = name
      · rw [if_pos hg, hg]
        exact ⟨g.2, List.mem_cons_self⟩
      · rw [if_neg hg]
        obtain ⟨ws, hws⟩ := ih
        exact ⟨ws, List.mem_cons_of_mem _ hws⟩

theorem ListsGlobals.add (h : p.ListsGlobals) (hsystem : p.system.Continues q.system)
    (hv : q.system.Files v) (hglobals : q.globals = addGlobal name v p.globals) : q.ListsGlobals := by
  -- Whatever an entry has, it had before, or it is the new variable.
  have hcases : ∀ n vs, (n, vs) ∈ q.globals → ∀ id w, vs.get? id = some w →
      (∃ ws, (n, ws) ∈ p.globals ∧ ws.get? id = some w) ∨ w = v ∧ id = v.id := by
    intro n vs hvs id w hw
    rw [hglobals] at hvs
    rcases mem_addGlobal hvs with hvs | ⟨ws, rfl, hws⟩
    · exact .inl ⟨vs, hvs, hw⟩
    · rw [SortedMap.get?_insert] at hw
      split at hw
      · next hid => exact .inr ⟨(Option.some.inj hw).symm, hid⟩
      · rcases hws with rfl | hws
        · exact absurd hw (by simp [EmptyCollection.emptyCollection])
        · exact .inl ⟨ws, hws, hw⟩
  constructor
  · rw [hglobals, names_addGlobal]
    split
    · exact h.nodup
    · next hname =>
        refine List.nodup_append.2 ⟨h.nodup, by simp, fun n hn m hm e => hname ?_⟩
        rwa [← List.mem_singleton.1 hm, ← e]
  · intro n vs hvs id w hw
    rcases hcases n vs hvs id w hw with ⟨ws, hws, hw⟩ | ⟨rfl, rfl⟩
    · exact h.keyed n ws hws id w hw
    · rfl
  · intro n vs hvs id w hw
    rcases hcases n vs hvs id w hw with ⟨ws, hws, hw⟩ | ⟨rfl, rfl⟩
    · exact (h.files n ws hws id w hw).of_continues hsystem
    · exact hv

/-- What is registered stays registered: a variable of the same number would be the same variable. -/
theorem Registers.add (h : p.Registers n w) (hp : p.ListsGlobals) (hsystem : p.system.Continues q.system)
    (hv : q.system.Files v) (hglobals : q.globals = addGlobal name v p.globals) : q.Registers n w := by
  obtain ⟨ws, hws, hw⟩ := h
  obtain ⟨id, hid⟩ := SortedMap.mem_values_iff.1 hw
  have hfiled : q.system.Files w := (hp.files n ws hws id w hid).of_continues hsystem
  obtain ⟨vs, hvs, hkeeps⟩ := exists_mem_addGlobal name v hws
  refine ⟨vs, hglobals ▸ hvs, SortedMap.mem_values_iff.2 ⟨id, ?_⟩⟩
  rcases hkeeps with rfl | rfl
  · exact hid
  · rw [SortedMap.get?_insert]
    split
    · next he => rw [hv.eq_of_id_eq hfiled (he.symm.trans (hp.keyed n ws hws id w hid).symm)]
    · exact hid

/-! #### One turn -/

theorem globals_indexParams (p : Program) (f : Variable) (params : List ParamDecl) :
    (p.indexParams f params).globals = p.globals :=
  indexParams_induction (P := fun q => q.globals = p.globals) (fun _ _ _ _ _ h => h) rfl

theorem globals_declareFunction (p : Program) (d : Decl) (isDefinition isStatic : Bool) (params : List ParamDecl) :
    (p.declareFunction d isDefinition isStatic params).2.globals = p.globals := by
  simp only [declareFunction]
  split
  · exact globals_indexParams _ _ _
  · cases isDefinition <;> exact globals_indexParams _ _ _

theorem globals_distrust (p : Program) (v : Variable) (d : Decl) : (p.distrust v d).globals = p.globals := by
  unfold distrust
  split <;> rfl

theorem globals_declare (p : Program) (d : Decl) : (p.declare d).2.globals = p.globals ∨
    d.kind = .global ∧ p.variableAt? d.location = none := by
  unfold declare
  cases hat : p.variableAt? d.location with
  | some v => exact .inl rfl
  | none =>
      simp only [declareNew, globals_distrust]
      cases hkind : d.kind with
      | global => exact .inr ⟨rfl, trivial⟩
      | function isDefinition isStatic params => exact .inl (p.globals_declareFunction d isDefinition isStatic params)
      | _ => exact .inl rfl

/-- Where nothing was declared, a global is registered with the variable that is made for it. -/
theorem globals_declare_global {d : Decl} (hkind : d.kind = .global) (hnew : p.variableAt? d.location = none) :
    (p.declare d).2.globals = addGlobal d.name (p.declare d).1 p.globals ∧
      (p.declare d).2.system.Files (p.declare d).1 := by
  obtain ⟨-, hfiled⟩ := p.system.declareType_files (some d.location) d.name true [] d.type
  have hsystem := (extends_distrust ((p.declareVariable d).2.note (p.declareVariable d).1 d.name .global)
    (p.declareVariable d).1 d).system
  simp only [declare, hnew, declareNew, hkind, globals_distrust]
  exact ⟨rfl, hfiled.of_continues hsystem⟩

theorem globals_callee? {c : CallSite} {f : Variable} (hc : p.callee? c = some (f, q)) : q.globals = p.globals := by
  unfold callee? at hc
  split at hc
  · rw [← (Prod.mk.inj (Option.some.inj hc)).2]
  · obtain ⟨sig, -, hsig⟩ := Option.map_eq_some_iff.1 hc
    obtain rfl : (p.placeholder c.callee sig c.location).2 = q := congrArg Prod.snd hsig
    unfold placeholder
    split <;> rfl

theorem globals_addByteCount (p : Program) (v : Variable) (e : BoundsExpr) :
    (p.addByteCount v e).globals = p.globals := by
  unfold addByteCount
  split <;> rfl

theorem globals_callAllocator (p : Program) (c : CallSite) : (p.callAllocator c).globals = p.globals := by
  unfold callAllocator
  split
  · split
    · rfl
    · split
      · exact p.globals_addByteCount _ _
      · rfl
  · rfl

theorem globals_call (p : Program) (c : CallSite) : (p.call c).globals = p.globals := by
  unfold call
  split
  · exact p.globals_callAllocator c
  · split
    · next f q hc =>
        rw [← globals_callee? hc]
        unfold callFunction
        split <;> rfl
    · rfl

/-- A global that is declared where nothing was declared is registered. -/
theorem Step.registers {node : NodeId} {d : Decl} (h : p.Step (.declare node d) q) (hkind : d.kind = .global)
    (hnew : p.variableAt? d.location = none) : ∃ v, p.declareNode node d = .ok (v, q) ∧ q.Registers d.name v := by
  cases h with
  | @declare _ _ nodes hunit =>
      -- The node is tied to its place first, which leaves what is declared there.
      generalize hopened : ({ p with unit := some (nodes.insert node d.location) } : Program) = opened
      have hdeclare : p.declareNode node d = .ok (opened.declare d) := by
        simp only [declareNode, register, hunit, ← hopened, Except.map]
      have hnew : opened.variableAt? d.location = none := by
        rw [← hopened]
        exact hnew
      obtain ⟨hglobals, -⟩ := globals_declare_global hkind hnew
      obtain ⟨ws, hws⟩ := exists_mem_addGlobal_self d.name (opened.declare d).1 opened.globals
      exact ⟨(opened.declare d).1, hdeclare, _, hglobals ▸ hws,
        SortedMap.mem_values_iff.2 ⟨_, SortedMap.get?_insert_self ..⟩⟩

/-- An event registers nothing, or declares a global where nothing was declared. -/
theorem Step.globals_cases {e : Event} (h : p.Step e q) : q.globals = p.globals ∨
    ∃ name v, q.globals = addGlobal name v p.globals ∧ q.system.Files v := by
  cases h with
  | @declare node d nodes hunit =>
      rcases globals_declare { p with unit := some (nodes.insert node d.location) } d with hsame | ⟨hkind, hnew⟩
      · exact .inl hsame
      · obtain ⟨hglobals, hfiled⟩ := globals_declare_global hkind hnew
        exact .inr ⟨d.name, _, hglobals, hfiled⟩
  | assign | cast | wild => exact .inl rfl
  | call => exact .inl (p.globals_call _)
  | bounds =>
      unfold addBounds
      split <;> exact .inl rfl

theorem Turn.globals_cases (h : p.Turn q) : q.globals = p.globals ∨
    ∃ name v, q.globals = addGlobal name v p.globals ∧ q.system.Files v := by
  cases h with
  | enter henter =>
      rw [(eq_of_enter henter).2]
      exact .inl rfl
  | event hstep => exact hstep.globals_cases
  | exit hexit =>
      rw [(eq_of_exit hexit).2]
      exact .inl rfl

/-! #### Walking and linking -/

theorem ListsGlobals.turn (h : p.ListsGlobals) (hturn : p.Turn q) : q.ListsGlobals := by
  have hsystem := hturn.extends.system
  rcases hturn.globals_cases with hglobals | ⟨name, v, hglobals, hv⟩
  · exact ⟨hglobals ▸ h.nodup, hglobals ▸ h.keyed, fun n vs hvs id w hw =>
      (h.files n vs (hglobals ▸ hvs) id w hw).of_continues hsystem⟩
  · exact h.add hsystem hv hglobals

theorem Walks.listsGlobals (h : p.Walks q) (hp : p.ListsGlobals) : q.ListsGlobals :=
  h.keeps (fun _ _ hturn hm => hm.turn hturn) hp

theorem listsGlobals_start (options : Options) : ListsGlobals { options } :=
  ⟨.nil, fun _ _ h => absurd h List.not_mem_nil, fun _ _ h => absurd h List.not_mem_nil⟩

/-- **Along a walk, what is registered stays registered.** -/
theorem Walks.registers (h : p.Walks q) (hp : p.ListsGlobals) (hw : p.Registers name w) : q.Registers name w := by
  have hboth : q.ListsGlobals ∧ q.Registers name w := by
    refine h.keeps (P := fun m => m.ListsGlobals ∧ m.Registers name w) ?_ ⟨hp, hw⟩
    rintro m m' hturn ⟨hm, hmw⟩
    refine ⟨hm.turn hturn, ?_⟩
    rcases hturn.globals_cases with hglobals | ⟨n, v, hglobals, hv⟩
    · unfold Registers
      rwa [hglobals]
    · exact hmw.add hm hturn.extends.system hv hglobals
  exact hboth.2

theorem globals_markExtern (p : Program) (name : String) (f : Variable) :
    (p.markExtern name f).globals = p.globals := by
  simp only [markExtern]
  split <;> rfl

theorem globals_linkFunction (p : Program) (key : String) : (p.linkFunction key).globals = p.globals := by
  unfold linkFunction
  split
  · rfl
  · rfl
  · exact p.globals_markExtern key _
  · rfl

theorem globals_linkPlaceholder (p : Program) (name : String) (f : Variable) :
    (p.linkPlaceholder name f).globals = p.globals := by
  unfold linkPlaceholder
  split
  · rfl
  · exact p.globals_markExtern name f

theorem globals_foldl {α : Type} {step : Program → α → Program} (hstep : ∀ (p : Program) a, (step p a).globals = p.globals)
    (l : List α) (p : Program) : (l.foldl step p).globals = p.globals := by
  induction l generalizing p with
  | nil => rfl
  | cons a rest ih => exact (ih (step p a)).trans (hstep p a)

/-- Linking registers nothing. -/
theorem globals_link (p : Program) : p.link.globals = p.globals :=
  (globals_foldl (fun p (e : String × Variable) => p.globals_linkPlaceholder e.1 e.2) _ _).trans
    (globals_foldl globals_linkFunction _ _)

/-- Once the program is linked, neighbours among the declarations of a global are settled. -/
theorem settled_link {options : Options} {E : AtomKey → Kind} (hwalks : Walks { options } p)
    (hE : p.link.store.Satisfied E) (hvs : (name, vs) ∈ p.globals) : vs.values.IsChain (Variable.Settled E) := by
  have hlists : p.ListsGlobals := hwalks.listsGlobals (listsGlobals_start options)
  have hfiles : ∀ v ∈ vs.values, p.system.Files v := by
    intro v hv
    obtain ⟨id, hid⟩ := SortedMap.mem_values_iff.1 hv
    exact hlists.files name vs hvs id v hid
  rw [store_link] at hE
  have hlinked := hE.allMet (Store.Recorded.fresh hwalks.grows)
  have hglobals : Demand.AllMet E p.globalDemands := hlinked.left.left
  exact (hglobals.of_flatMap hvs).isChain fun v hv w hw => (hfiles v hv).eq_of_id_eq (hfiles w hw)

/-- The declarations of a global are all in one entry. -/
theorem ListsGlobals.mem_values (h : p.ListsGlobals) (hvs : (name, vs) ∈ p.globals) (hw : p.Registers name w) :
    w ∈ vs.values := by
  obtain ⟨ws, hws, hw⟩ := hw
  obtain ⟨-, rfl⟩ := Prod.mk.inj (List.inj_on_of_nodup_map h.nodup hvs hws rfl)
  exact hw

/-- All that is registered as declarations of a global are structurally equal pointers. -/
def Uniform (p : Program) (name : String) : Prop :=
  ∀ v, p.Registers name v → v.IsPointer ∧ ∀ w, p.Registers name w → v.sameShape false w = true

/-- Once the program is linked, pointers registered for one global agree, at all levels if what is
registered is uniform, and otherwise in being unchecked. -/
theorem entity_link {options : Options} {E : AtomKey → Kind} {a b : Object} {x y : AtomKey}
    (hwalks : Walks { options } p) (hE : p.link.store.Satisfied E) (hv : p.Registers name v)
    (hw : p.Registers name w) (ha : v.object? = some a) (hb : w.object? = some b) (hx : a.outer? = some x)
    (hy : b.outer? = some y) :
    E x = E y ∧ (p.Uniform name → a.atoms.map E = b.atoms.map E) ∧ (¬ p.Uniform name → E x = .wild) := by
  have hlists : p.ListsGlobals := hwalks.listsGlobals (listsGlobals_start options)
  obtain ⟨vs, hvs, hvmem⟩ := hv
  have hmem : ∀ u, p.Registers name u → u ∈ vs.values := fun u hu => hlists.mem_values hvs hu
  have hregisters : ∀ u ∈ vs.values, p.Registers name u := fun u hu => ⟨vs, hvs, hu⟩
  have hchain := settled_link hwalks hE hvs
  refine ⟨?_, fun huniform => ?_, fun huniform => ?_⟩
  · exact (Variable.oneEntity_of_isChain hchain v hvmem w (hmem w hw)).outer_eq ha hb hx hy
  · have halike := Variable.alike_of_isChain hchain
      (fun u hu u' hu' => (huniform u (hregisters u hu)).2 u' (hregisters u' hu')) v hvmem w (hmem w hw)
    rw [Variable.Alike, Variable.levelKinds?_eq ha, Variable.levelKinds?_eq hb] at halike
    exact Option.some.inj halike
  · have hpointer : v.IsPointer := ⟨a, x, ha, hx⟩
    -- Somewhere shapes differ: between two that are registered, or from the pointer to what is none.
    obtain ⟨u, hu, u', hu', hshape⟩ : ∃ u ∈ vs.values, ∃ u' ∈ vs.values, u.sameShape false u' = false := by
      by_contra hnone
      refine huniform fun u hu => ?_
      have hsame : ∀ z ∈ vs.values, ∀ z' ∈ vs.values, z.sameShape false z' = true := fun z hz z' hz' => by
        rw [← Bool.not_eq_false]
        exact fun hne => hnone ⟨z, hz, z', hz', hne⟩
      exact ⟨hpointer.of_sameShape (hsame v hvmem u (hmem u hu)), fun z hz => hsame u (hmem u hu) z (hmem z hz)⟩
    exact (Variable.givenUp_of_isChain hchain hu hu' hshape v hvmem).outer ha hx

end Program

namespace Session

open Program (Walks)

variable {s t : Session} {options : Options} {r : Recording} {outcome : Outcome} {canDump : Bool}

/-- **All declarations of a global are one entity.**  A session was built, and its first solution
leaves nothing unsatisfied.  Every global that was declared where nothing had been is registered
under its name.  Of two pointers that are registered under one name, the outermost atoms have the
same kind.  If all that is registered under the name are structurally equal pointers, the two are
alike at all levels; otherwise they are unchecked. -/
theorem globals_are_entities (hbuild : (start options r).build = .ok (.ok (), s))
    (hsolve : s.solve canDump = .ok (.ok outcome, t)) (hsolved : outcome.isSolved = true) :
    let E := t.program.store.value
    (∀ j i node d m, r.event? j i = some (.declare node d) → d.kind = .global → Before options r j i m →
      m.variableAt? d.location = none →
      ∃ v q, m.declareNode node d = .ok (v, q) ∧ s.program.Registers d.name v) ∧
    ∀ name v w a b x y, s.program.Registers name v → s.program.Registers name w → v.object? = some a →
      w.object? = some b → a.outer? = some x → b.outer? = some y →
      E x = E y ∧ (s.program.Uniform name → a.atoms.map E = b.atoms.map E) ∧
        (¬ s.program.Uniform name → E x = .wild) := by
  have hE := satisfied_of_solve hsolve hsolved
  refine ⟨?_, ?_⟩
  · intro j i node d m he hkind hm hnew
    obtain ⟨m', q, p, hbefore, hstep, hwalks, hlink⟩ := exists_before hbuild he
    obtain rfl := hm.eq hbefore
    obtain ⟨v, hdeclare, hregisters⟩ := hstep.registers hkind hnew
    have hreplayed := hm.walks.trans (Program.Turn.event hstep).walks
    have hkept := hwalks.registers (hreplayed.listsGlobals (Program.listsGlobals_start options)) hregisters
    refine ⟨v, q, hdeclare, ?_⟩
    unfold Program.Registers at hkept ⊢
    rwa [hlink, Program.globals_link]
  · intro name v w a b x y hv hw ha hb hx hy
    obtain ⟨p, hvisit, hlink, -⟩ := exists_of_build hbuild
    have hwalks : Walks { options } p := walks_visitAll hvisit
    have hsame : ∀ u, s.program.Registers name u ↔ p.Registers name u := fun u => by
      unfold Program.Registers
      rw [hlink, Program.globals_link]
    have huniform : s.program.Uniform name ↔ p.Uniform name := by
      unfold Program.Uniform
      simp only [hsame]
    rw [huniform]
    exact Program.entity_link hwalks (hlink ▸ hE) ((hsame v).1 hv) ((hsame w).1 hw) ha hb hx hy

/-! ### A concrete session -/

/-- The declaration of a global, alone on a line. -/
def globalDecl (name file : String) (line : Nat) (type : CType) : Decl where
  name := name
  location := ⟨file, line, 1, none⟩
  type := type
  kind := .global

/-- Two globals are declared in two files.  The types of the one agree, and it is used once in a way
that cannot be checked; those of the other do not, and a number stands between its two pointers. -/
def sharedGlobals : Recording where
  units := [
    { file := "a.c"
      events := [
        .declare 0 (globalDecl "g" "a.c" 1 (pointerTo (pointerTo intType))),
        .declare 1 (globalDecl "h" "a.c" 2 (pointerTo intType)), .wild 0 ⟨"why", none⟩] },
    { file := "b.c"
      events := [
        .declare 0 (globalDecl "h" "b.c" 1 intType), .declare 1 (globalDecl "h" "b.c" 2 (pointerTo intType)),
        .declare 2 (globalDecl "g" "b.c" 3 (pointerTo (pointerTo intType)))] }]

/-- Both pointers of the second global are given up, in either file, though neither is ever used. -/
theorem sharedGlobals_entities :
    ((start {} sharedGlobals).build = .ok (.ok (), ofRecording sharedGlobals) ∧
      (ofRecording sharedGlobals).solve false =
        .ok (.ok (ofRecording sharedGlobals).program.solve.1, (ofRecording sharedGlobals).after (.solve false)) ∧
      (ofRecording sharedGlobals).program.solve.1.isSolved = true) ∧
    (ofRecording sharedGlobals).program.Registers "h" (.object ⟨1, "h", [⟨2, .pointer⟩], "int"⟩) ∧
    (ofRecording sharedGlobals).program.Registers "h" (.object ⟨2, "h", [], "int"⟩) ∧
    (ofRecording sharedGlobals).program.Registers "h" (.object ⟨3, "h", [⟨3, .pointer⟩], "int"⟩) ∧
    ¬ (ofRecording sharedGlobals).program.Uniform "h" ∧
    ((ofRecording sharedGlobals).after (.solve false)).program.store.value 2 = .wild ∧
    ((ofRecording sharedGlobals).after (.solve false)).program.store.value 2 =
      ((ofRecording sharedGlobals).after (.solve false)).program.store.value 3 := by
  have hbuild : (start {} sharedGlobals).build = .ok (.ok (), ofRecording sharedGlobals) := rfl
  have hsolve : (ofRecording sharedGlobals).solve false =
      .ok (.ok (ofRecording sharedGlobals).program.solve.1, (ofRecording sharedGlobals).after (.solve false)) :=
    solve_eq_after (by decide +kernel)
  have hsolved : (ofRecording sharedGlobals).program.solve.1.isSolved = true := by decide +kernel
  have hentry : ∃ vs, (ofRecording sharedGlobals).program.globals[1]? = some ("h", vs) ∧
      vs.values = [.object ⟨1, "h", [⟨2, .pointer⟩], "int"⟩, .object ⟨2, "h", [], "int"⟩,
        .object ⟨3, "h", [⟨3, .pointer⟩], "int"⟩] := ⟨_, rfl, rfl⟩
  obtain ⟨vs, hvs, hvalues⟩ := hentry
  have hregisters : ∀ v ∈ vs.values, (ofRecording sharedGlobals).program.Registers "h" v :=
    fun v hv => ⟨vs, List.mem_of_getElem? hvs, hv⟩
  rw [hvalues] at hregisters
  have hfirst := hregisters _ List.mem_cons_self
  have hsecond := hregisters _ (List.mem_cons_of_mem _ List.mem_cons_self)
  have hthird := hregisters _ (List.mem_cons_of_mem _ (List.mem_cons_of_mem _ List.mem_cons_self))
  have huniform : ¬ (ofRecording sharedGlobals).program.Uniform "h" := fun h =>
    absurd ((h _ hfirst).2 _ hsecond) (by decide +kernel)
  obtain ⟨hsame, -, hunchecked⟩ :=
    (globals_are_entities hbuild hsolve hsolved).2 "h" _ _ _ _ 2 3 hfirst hthird rfl rfl rfl rfl
  exact ⟨⟨hbuild, hsolve, hsolved⟩, hfirst, hsecond, hthird, huniform, hunchecked huniform, hsame⟩

end Session

end PointerKinds
