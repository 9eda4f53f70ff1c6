/-
When a location keeps its variable.

A location is resolved when something is declared there, and when a node that is tied to it is
looked up.  Both give the variable of the lowest number that is filed there, or make one if there
is none.  What is made has a higher number than all there is, so a location keeps its variable
whatever is declared that is new.

What is not new are the parameters of a function that is declared again.  They are filed under
the locations that the later declaration gives for them, with the numbers that they have had from
the first declaration on.  Where such a location means a younger variable already, it means the
parameter from then on.  The same happens at once to a function that is declared at the location
of one of its own parameters, which are older than the function.  These are the only two ways for
a location to lose its variable.
-/
import PointerKinds.Proofs.Session.Filing
import PointerKinds.Proofs.Session.Statics

namespace PointerKinds

namespace System

variable {sys : System} {location : Option Location} {w : Variable}

mutual

/-- What is declared has a number that was not given out before. -/
theorem le_id_declareType (sys : System) (location : Option Location) (name : String) (bare : Bool)
    (levels : List Level) :
    ∀ ty, sys.declared.length ≤ (declareType sys location name bare levels ty).1.id
  | .pointer pointee checked => by
      simp only [declareType]
      exact le_id_declareType (sys.newLevel location _).2 location name false _ pointee
  | .array element size => by
      simp only [declareType]
      exact le_id_declareType (sys.newLevel location _).2 location name false _ element
  | .function ret params variadic => by
      simp only [declareType]
      have hret := (declareType_files sys location (name ++ "$ret") true [] ret).1
      have hparams := (declareParams_files (declareType sys location (name ++ "$ret") true [] ret).2 location
        (paramNames [] params.length) params).1
      have hparts := (hret.trans hparams).length_le
      split
      · exact hparts
      · exact hparts.trans (continues_push _ _).length_le
  | .void | .scalar .. | .record .. => by
      simp only [declareType]
      exact le_rfl

theorem le_id_declareParams (sys : System) (location : Option Location) :
    ∀ names tys, ∀ v ∈ (declareParams sys location names tys).1, sys.declared.length ≤ v.id
  | name :: names, ty :: tys => by
      simp only [declareParams, List.forall_mem_cons]
      have hfirst := (declareType_files sys location name true [] ty).1.length_le
      exact ⟨le_id_declareType sys location name true [] ty, fun v hv => hfirst.trans
        (le_id_declareParams (declareType sys location name true [] ty).2 location names tys v hv)⟩
  | [], _ => by
      simp only [declareParams]
      exact fun v hv => absurd hv List.not_mem_nil
  | _ :: _, [] => by
      simp only [declareParams]
      exact fun v hv => absurd hv List.not_mem_nil

end

theorem le_id_of_mem_params {name key : String} {sig : Signature} {given : List String} {hasBody : Bool}
    (hw : w ∈ (sys.declareFunction name key sig given hasBody location).1.params) :
    sys.declared.length ≤ w.id := by
  have hret := (declareType_files sys location (name ++ "$ret") true [] sig.ret).1.length_le
  exact hret.trans (le_id_declareParams _ location _ _ w hw)

end System

namespace Program

variable {p q n n' : Program} {e : Event} {d : Decl} {node : NodeId} {L : Location} {v w : Variable}
  {l l' : List (Program × Event)} {options : Options} {j : VariableId}

/-! ### Resolving a location -/

/-- A program resolves a location to a variable: a node that is tied to it is looked up, or
something is declared there, which is then in the log. -/
inductive Resolves (p : Program) : Location → List (Program × Event) → Variable → Program → Prop
  | lookup {node : NodeId} {L : Location} {v : Variable} (hnode : p.locationOfNode? node = some L)
      (hv : p.resolve node = .ok v) : Resolves p L [] v p
  | declare {node : NodeId} {d : Decl} {v : Variable} {q : Program} (h : p.declareNode node d = .ok (v, q)) :
      Resolves p d.location [(p, .declare node d)] v q

/-- An event declares a function at a new location, and a parameter of the function that is older
than a variable at the location of that variable. -/
inductive Displaces (p : Program) (L : Location) (v : Variable) : Event → Prop
  | intro {node : NodeId} {d : Decl} {isDefinition isStatic : Bool} {ps : List ParamDecl} {param : ParamDecl}
      {w : Variable} (hkind : d.kind = .function isDefinition isStatic ps) (hnew : p.variableAt? d.location = none)
      (hparam : (param, w) ∈ ps.zip (p.declareNew d).1.params) (hlocation : param.location = L)
      (hid : w.id < v.id) : Displaces p L v (.declare node d)

/-- An event declares a function that is known. -/
inductive Redeclares (p : Program) : Event → Prop
  | intro {node : NodeId} {d : Decl} {isDefinition isStatic : Bool} {ps : List ParamDecl} {f : Variable}
      (hkind : d.kind = .function isDefinition isStatic ps)
      (hknown : p.knownFunction? (functionKey d.name d.location.file isStatic) isDefinition = some f) :
      Redeclares p (.declare node d)

theorem variableAt?_of_resolve (hnode : p.locationOfNode? node = some L) (hv : p.resolve node = .ok v) :
    p.variableAt? L = some v := by
  have hat : p.variableOfNode? node = p.variableAt? L := by
    unfold variableOfNode?
    rw [hnode, Option.bind_some]
  unfold resolve at hv
  rw [hat] at hv
  split at hv
  · next w hw => rw [hw, Except.ok.inj hv]
  · exact nomatch hv

theorem declareNode_of_unit {nodes : SortedMap NodeId Location} (hunit : p.unit = some nodes) :
    p.declareNode node d = .ok (({ p with unit := some (nodes.insert node d.location) } : Program).declare d) := by
  unfold declareNode register
  rw [hunit]
  rfl

theorem exists_of_declareNode (h : p.declareNode node d = .ok (v, q)) :
    ∃ nodes, p.unit = some nodes ∧
      ({ p with unit := some (nodes.insert node d.location) } : Program).declare d = (v, q) := by
  cases hunit : p.unit with
  | none =>
      unfold declareNode register at h
      rw [hunit] at h
      exact nomatch h
  | some nodes =>
      rw [declareNode_of_unit hunit] at h
      exact ⟨nodes, rfl, Except.ok.inj h⟩

/-- A declaration gives what its location means, or files what it makes. -/
theorem declare_cases (p : Program) (d : Decl) :
    p.variableAt? d.location = some (p.declare d).1 ∨
      p.variableAt? d.location = none ∧ (p.filingsOf d).head? = some (d.location, (p.declare d).1) := by
  unfold declare filingsOf
  cases p.variableAt? d.location with
  | some v => exact .inl rfl
  | none => exact .inr ⟨rfl, rfl⟩

theorem declareNode_cases (h : p.declareNode node d = .ok (v, q)) :
    p.variableAt? d.location = some v ∨
      p.variableAt? d.location = none ∧ (p.filings (.declare node d)).head? = some (d.location, v) := by
  obtain ⟨nodes, -, hdeclare⟩ := exists_of_declareNode h
  have hcases := declare_cases { p with unit := some (nodes.insert node d.location) } d
  rw [hdeclare, filingsOf_withUnit] at hcases
  exact hcases

theorem Resolves.logs (h : p.Resolves L l v q) : p.Logs l q := by
  cases h with
  | lookup => exact .refl p
  | declare h =>
      refine .event (step_of_replayEvent ?_) (.refl q)
      rw [replayEvent, h]
      rfl

/-- What a location is resolved to is what it means, or else what was filed there first. -/
theorem Resolves.mem_candidates (h : p.Resolves L l v q) :
    v.id ∈ candidates p.declared (logFilings l) L ∧ ∀ i, numberAt? p.declared L = some i → i = v.id := by
  have hmeant : p.variableAt? L = some v → numberAt? p.declared L = some v.id := fun hv => by
    rw [show numberAt? p.declared L = (p.variableAt? L).map (·.id) from rfl, hv, Option.map_some]
  have hunique : p.variableAt? L = some v → ∀ i, numberAt? p.declared L = some i → i = v.id :=
    fun hv i hi => Option.some.inj (hi.symm.trans (hmeant hv))
  cases h with
  | lookup hnode hv =>
      have hat := variableAt?_of_resolve hnode hv
      exact ⟨.inl (hmeant hat), hunique hat⟩
  | @declare node d _ _ h =>
      rcases declareNode_cases h with hat | ⟨hnone, hhead⟩
      · exact ⟨.inl (hmeant hat), hunique hat⟩
      · have hfiled : (d.location, v) ∈ logFilings [(p, .declare node d)] :=
          List.mem_flatMap.2 ⟨_, List.mem_singleton_self _, List.mem_of_mem_head? hhead⟩
        refine ⟨.inr ⟨_, hfiled, rfl, rfl⟩, fun i hi => ?_⟩
        rw [show numberAt? p.declared d.location = (p.variableAt? d.location).map (·.id) from rfl, hnone] at hi
        exact nomatch hi

theorem Resolves.mem_candidates_append (h : p.Resolves L l v q) (l' : List (Program × Event)) :
    v.id ∈ candidates p.declared (logFilings (l ++ l')) L := by
  refine h.mem_candidates.1.imp_right ?_
  rintro ⟨f, hf, hL⟩
  refine ⟨f, ?_, hL⟩
  rw [logFilings, List.flatMap_append]
  exact List.mem_append_left _ hf

/-! ### Losing the variable -/

/-- An older variable is filed at a location exactly if a parameter takes it over. -/
theorem exists_older_iff_displaces (hhead : ∀ f ∈ (p.filings e).head?, f.1 = L → v.id ≤ f.2.id) :
    (∃ f ∈ p.filings e, f.1 = L ∧ f.2.id < v.id) ↔ p.Displaces L v e := by
  constructor
  · rintro ⟨f, hf, hL, hlt⟩
    cases e with
    | declare node d =>
        simp only [filings, filingsOf] at hf hhead
        cases hnew : p.variableAt? d.location with
        | some u =>
            rw [hnew] at hf
            exact absurd hf List.not_mem_nil
        | none =>
            rw [hnew] at hf hhead
            rcases List.mem_cons.1 hf with rfl | hf
            · exact absurd hlt (Nat.not_lt.2 (hhead _ rfl hL))
            · obtain ⟨⟨param, u⟩, hparam, rfl⟩ := List.mem_map.1 hf
              cases hkind : d.kind with
              | function isDefinition isStatic ps =>
                  rw [hkind] at hparam
                  exact .intro hkind hnew hparam hL hlt
              | _ =>
                  rw [hkind] at hparam
                  exact absurd hparam (by simp [params])
    | _ => exact absurd hf List.not_mem_nil
  · rintro @⟨node, d, isDefinition, isStatic, ps, param, w, hkind, hnew, hparam, rfl, hid⟩
    refine ⟨(param.location, w), ?_, rfl, hid⟩
    simp only [filings, filingsOf]
    rw [hnew]
    refine List.mem_cons_of_mem _ (List.mem_map.2 ⟨(param, w), ?_, rfl⟩)
    rw [hkind]
    exact hparam

/-- What a location means has nothing new declared at it, so the head of what is filed is nothing
older than what the location was resolved to. -/
theorem Resolves.le_head (hp : Walks { options } p) (hv : p.Resolves L l v q) (hl : q.Logs l' n) :
    ∀ x ∈ l ++ l', ∀ f ∈ (x.1.filings x.2).head?, f.1 = L → v.id ≤ f.2.id := by
  intro x hx f hf hL
  rcases List.mem_append.1 hx with hx | hx
  · cases hv with
    | lookup => exact absurd hx List.not_mem_nil
    | declare h =>
        rw [List.mem_singleton.1 hx] at hf
        rcases declareNode_cases h with hat | ⟨-, hhead⟩
        · rw [filings, filingsOf, hat] at hf
          exact nomatch hf
        · rw [hhead] at hf
          rw [← Option.some.inj hf]
  · exfalso
    obtain ⟨m, e⟩ := x
    obtain ⟨-, hbefore, -, -⟩ := hl.exists_step hx
    obtain ⟨before, hbefore⟩ := hbefore.exists_logs
    obtain ⟨i, hi⟩ := (hv.logs.trans hbefore).exists_numberAt? hp (hv.mem_candidates_append before)
    cases e with
    | declare node d =>
        rcases declare_cases m d with hat | ⟨hnone, hhead⟩
        · rw [filings, filingsOf, hat] at hf
          exact nomatch hf
        · rw [filings, hhead] at hf
          obtain rfl := Option.some.inj hf
          rw [show numberAt? m.declared L = (m.variableAt? L).map (·.id) from rfl, ← hL, hnone] at hi
          exact nomatch hi
    | _ => exact nomatch hf

/-- A location keeps the number of its variable exactly if no parameter takes it over, neither in
the event that it was resolved in nor later. -/
theorem Resolves.number_eq_iff (hp : Walks { options } p) (hv : p.Resolves L l v q) (hl : q.Logs l' n)
    (hj : numberAt? n.declared L = some j) : j = v.id ↔ ∀ x ∈ l ++ l', ¬ x.1.Displaces L v x.2 := by
  have hleast := ((hv.logs.trans hl).numberAt?_eq_some_iff hp).1 hj
  have hdisplaces : ∀ x ∈ l ++ l',
      ((∃ f ∈ x.1.filings x.2, f.1 = L ∧ f.2.id < v.id) ↔ x.1.Displaces L v x.2) := fun x hx =>
    exists_older_iff_displaces (hv.le_head hp hl x hx)
  constructor
  · rintro rfl x hx hdisplaced
    obtain ⟨f, hf, hL, hlt⟩ := (hdisplaces x hx).2 hdisplaced
    exact Nat.not_lt.2 (hleast.2 (.inr ⟨f, List.mem_flatMap.2 ⟨x, hx, hf⟩, hL, rfl⟩)) hlt
  · intro h
    refine le_antisymm (hleast.2 (hv.mem_candidates_append l')) ?_
    rcases hleast.1 with hj | ⟨f, hf, hL, rfl⟩
    · exact (hv.mem_candidates.2 j hj).ge
    · obtain ⟨x, hx, hf⟩ := List.mem_flatMap.1 hf
      exact Nat.not_lt.1 fun hlt => h x hx ((hdisplaces x hx).1 ⟨f, hf, hL, hlt⟩)

/-- The variable that is declared is filed with all its parts. -/
theorem files_declare (hcoherent : p.Coherent) (d : Decl) : (p.declare d).2.system.Files (p.declare d).1 := by
  have hnew : ∀ m : Variable × Program, m.2.system.Files m.1 →
      ((m.2.note m.1 d.name d.kind).distrust m.1 d).system.Files m.1 := fun m hm =>
    (hm.of_continues (extends_note _ _ _ _).system).of_continues (extends_distrust _ _ _).system
  unfold Program.declare
  cases hat : p.variableAt? d.location with
  | some v =>
      obtain ⟨vs, hvs, hhead⟩ := Option.bind_eq_some_iff.1 hat
      exact hcoherent.located _ vs hvs v (List.mem_of_mem_head? hhead)
  | none =>
      simp only [declareNew]
      refine hnew _ ?_
      split
      · exact files_declareFunction hcoherent d _ _ _
      · exact (p.system.declareType_files (some d.location) d.name true [] d.type).2

theorem Resolves.files (hp : Walks { options } p) (h : p.Resolves L l v q) : q.system.Files v := by
  have hcoherent : p.Coherent := hp.coherent (coherent_start options)
  cases h with
  | lookup _ hv => exact hcoherent.files_of_resolve hv
  | @declare node d _ _ h =>
      obtain ⟨nodes, -, hdeclare⟩ := exists_of_declareNode h
      have hopened : ({ p with unit := some (nodes.insert node d.location) } : Program).Coherent :=
        hcoherent.of_continues (.refl p.system) rfl rfl rfl
      have hfiled := files_declare hopened d
      rwa [hdeclare] at hfiled

/-- The parameters of a function that was not known are younger than everything declared. -/
theorem Displaces.redeclares (hv : p.system.Files v) (h : p.Displaces L v e) : p.Redeclares e := by
  obtain @⟨node, d, isDefinition, isStatic, ps, param, w, hkind, -, hparam, -, hid⟩ := h
  cases hknown : p.knownFunction? (functionKey d.name d.location.file isStatic) isDefinition with
  | some f => exact .intro hkind hknown
  | none =>
      have hold : v.id < p.system.declared.length := (List.getElem?_eq_some_iff.1 hv.find?).1
      have hyoung : p.system.declared.length ≤ w.id := by
        have hw := (List.of_mem_zip hparam).2
        simp only [declareNew, hkind, declareFunction, hknown] at hw
        exact System.le_id_of_mem_params hw
      exact absurd (hyoung.trans_lt hid) hold.asymm

/-- **A location keeps its variable unless an older parameter is filed there.**  Whatever was
resolved to a variable means one variable from then on, in every unit and for every look-up and
declaration.  It is the same variable exactly if no function is declared with an older parameter at
the location, and only a function that was declared before can be. -/
theorem location_keeps_iff (hp : Walks { options } p) (hv : p.Resolves L l v q) (hl : q.Logs l' n) :
    ∃ w, (∀ node, n.locationOfNode? node = some L → n.resolve node = .ok w) ∧
      (∀ node d, d.location = L → n.unit.isSome → ∃ n', n.declareNode node d = .ok (w, n')) ∧
      (w = v ↔ ∀ x ∈ l ++ l', ¬ x.1.Displaces L v x.2) ∧
      ∀ x ∈ l', x.1.Displaces L v x.2 → x.1.Redeclares x.2 := by
  have hq : Walks { options } q := hp.trans hv.logs.walks
  have hn : Walks { options } n := hq.trans hl.walks
  have hvfiled : q.system.Files v := hv.files hp
  obtain ⟨j, hj⟩ := (hv.logs.trans hl).exists_numberAt? hp (hv.mem_candidates_append l')
  obtain ⟨w, hw, rfl⟩ : ∃ w, n.variableAt? L = some w ∧ w.id = j := Option.map_eq_some_iff.1 hj
  have hsame : w = v ↔ w.id = v.id := by
    refine ⟨congrArg _, fun hid => ?_⟩
    obtain ⟨vs, hvs, hhead⟩ := Option.bind_eq_some_iff.1 hw
    have hwfiled := (hn.coherent (coherent_start options)).located L vs hvs w (List.mem_of_mem_head? hhead)
    exact hwfiled.eq_of_id_eq (hvfiled.of_continues hl.walks.extends.system) hid
  refine ⟨w, fun node hnode => ?_, fun node d hd hunit => ?_, hsame.trans (hv.number_eq_iff hp hl hj), ?_⟩
  · unfold resolve variableOfNode?
    rw [hnode, Option.bind_some, hw]
  · obtain ⟨nodes, hnodes⟩ := Option.isSome_iff_exists.1 hunit
    refine ⟨{ n with unit := some (nodes.insert node d.location) }, ?_⟩
    rw [declareNode_of_unit hnodes, declare]
    rw [show ({ n with unit := some (nodes.insert node d.location) } : Program).variableAt? d.location = some w
      from hd ▸ hw]
  · rintro ⟨m, e⟩ hx hdisplaced
    obtain ⟨m', hbefore, -, -⟩ := hl.exists_step hx
    exact hdisplaced.redeclares (hvfiled.of_continues hbefore.extends.system)

end Program

namespace Session

open Program (step_of_replayEvent location_keeps_iff)

/-! ### Concrete sessions -/

/-- The declaration of a function together with its parameter. -/
def functionWithParam (location param : Location) : Decl where
  name := "f"
  location := location
  type := .function (pointerTo intType) [pointerTo intType] false
  kind := .function false false [⟨"x", param⟩]

/-- A pointer, which is declared where the parameter of a function may be. -/
def pointerDecl : Decl := { localPointer "x" 2 with location := ⟨"a.c", 2, 8, none⟩ }

/-- A function is declared in a header, then a pointer is declared, then the function again with its
parameter somewhere, and the pointer is used in a way that cannot be checked. -/
def declaredAgain (param : Location) : Recording where
  units := [{
    file := "a.c"
    events := [
      .declare 0 (functionWithParam ⟨"h.h", 1, 1, none⟩ ⟨"h.h", 1, 8, none⟩), .declare 1 pointerDecl,
      .declare 2 (functionWithParam ⟨"a.c", 2, 1, none⟩ param), .wild 1 ⟨"why", none⟩] }]

/-- The pointer. -/
def pointerX : Variable := .object ⟨3, "x", [⟨2, .pointer⟩], "int"⟩

/-- The parameter of the function, which is older. -/
def parameterX : Variable := .object ⟨1, "x", [⟨1, .pointer⟩], "int"⟩

/-- Where the parameter is next to the pointer, the pointer stays what it was. -/
theorem besidePointer_keeps :
    Before {} (declaredAgain ⟨"a.c", 2, 16, none⟩) 0 1 (firstBefore (declaredAgain ⟨"a.c", 2, 16, none⟩) "a.c" 1) ∧
    (firstBefore (declaredAgain ⟨"a.c", 2, 16, none⟩) "a.c" 1).declareNode 1 pointerDecl =
      .ok (pointerX, firstBefore (declaredAgain ⟨"a.c", 2, 16, none⟩) "a.c" 2) ∧
    (firstBefore (declaredAgain ⟨"a.c", 2, 16, none⟩) "a.c" 3).resolve 1 = .ok pointerX := by
  have hbefore : Before {} (declaredAgain ⟨"a.c", 2, 16, none⟩) 0 1
      (firstBefore (declaredAgain ⟨"a.c", 2, 16, none⟩) "a.c" 1) := .intro rfl rfl rfl rfl rfl
  have hdeclare : (firstBefore (declaredAgain ⟨"a.c", 2, 16, none⟩) "a.c" 1).declareNode 1 pointerDecl =
      .ok (pointerX, firstBefore (declaredAgain ⟨"a.c", 2, 16, none⟩) "a.c" 2) := rfl
  have hagain : (firstBefore (declaredAgain ⟨"a.c", 2, 16, none⟩) "a.c" 2).Logs
      [(_, .declare 2 (functionWithParam ⟨"a.c", 2, 1, none⟩ ⟨"a.c", 2, 16, none⟩))]
      (firstBefore (declaredAgain ⟨"a.c", 2, 16, none⟩) "a.c" 3) := .event (step_of_replayEvent rfl) (.refl _)
  obtain ⟨w, hresolve, -, hsame, -⟩ := location_keeps_iff hbefore.walks (.declare hdeclare) hagain
  have hkept : w = pointerX := by
    refine hsame.2 fun x hx => ?_
    rcases List.mem_pair.1 hx with rfl | rfl
    · rintro ⟨hkind, -⟩
      exact nomatch hkind
    · rintro ⟨hkind, -, hparam, hlocation, -⟩
      obtain ⟨-, -, rfl⟩ := DeclKind.function.inj hkind
      rw [List.mem_singleton.1 (List.of_mem_zip hparam).1] at hlocation
      exact absurd hlocation (by decide)
  exact ⟨hbefore, hdeclare, hkept ▸ hresolve 1 rfl⟩

/-- Where the parameter is at the location of the pointer, the node of the pointer means the
parameter from then on.  So what is said of the pointer is not said of it: its atom stays checked, and
that of the parameter does not. -/
theorem pointer_becomes_parameter :
    (start {} (declaredAgain ⟨"a.c", 2, 8, none⟩)).build =
      .ok (.ok (), ofRecording (declaredAgain ⟨"a.c", 2, 8, none⟩)) ∧
    Before {} (declaredAgain ⟨"a.c", 2, 8, none⟩) 0 1 (firstBefore (declaredAgain ⟨"a.c", 2, 8, none⟩) "a.c" 1) ∧
    (firstBefore (declaredAgain ⟨"a.c", 2, 8, none⟩) "a.c" 1).declareNode 1 pointerDecl =
      .ok (pointerX, firstBefore (declaredAgain ⟨"a.c", 2, 8, none⟩) "a.c" 2) ∧
    (firstBefore (declaredAgain ⟨"a.c", 2, 8, none⟩) "a.c" 3).resolve 1 = .ok parameterX ∧
    parameterX ≠ pointerX ∧
    ((ofRecording (declaredAgain ⟨"a.c", 2, 8, none⟩)).after (.solve false)).program.store.value 2 = .ptr ∧
    ((ofRecording (declaredAgain ⟨"a.c", 2, 8, none⟩)).after (.solve false)).program.store.value 1 = .wild := by
  refine ⟨rfl, .intro rfl rfl rfl rfl rfl, rfl, rfl, ?_, by decide +kernel, by decide +kernel⟩
  intro h
  exact absurd (congrArg Variable.id h) (by decide)

end Session

end PointerKinds
