/-
Calls reach the function with the body.

A call may be recorded before or after the function it means is declared or defined.  It is
bound to what is filed under the name at that moment: the function with the body, the
declaration without one, or a placeholder.  Whatever it is bound to stays filed, and when the
program is linked, the function flows into its declaration, against which the parameters flow,
and the placeholder is made to agree with it.  So what goes to the one goes to the other.

A function that is static in the file where the call is located takes precedence; the file is
that of the call's location, which need not be the one that is visited.
-/
import PointerKinds.Proofs.Session.Building
import PointerKinds.Proofs.Session.Events
import PointerKinds.Proofs.Session.Functions

namespace PointerKinds

namespace Program

variable {p q : Program} {E : AtomKey → Kind} {c : CallSite} {d f : Variable} {name : String}

/-! ### What linking relates -/

/-- A function flows into its declaration without a body. -/
theorem mem_linkDemands_flow (hd : p.definitions.get? name = some d) (hf : p.declarations.get? name = some f)
    {x : Demand} (hx : x ∈ Demand.along ⟨"Function declaration and definition", none⟩ .forward d f) :
    x ∈ p.linkDemands := by
  have hkey : name ∈ p.functionKeys := by
    unfold functionKeys
    rw [← SortedSet.mem_def, SortedSet.mem_ofList, List.mem_append]
    exact .inr ((SortedMap.mem_keys_iff ..).2 (Option.isSome_iff_exists.2 ⟨d, hd⟩))
  have hdemands : p.functionDemands name = Demand.along ⟨"Function declaration and definition", none⟩ .forward d f := by
    unfold functionDemands
    rw [hd, hf]
  refine List.mem_append_left _ (List.mem_append_right _ (List.mem_flatMap.2 ⟨name, hkey, ?_⟩))
  rw [hdemands]
  exact hx

/-- A placeholder agrees with the function of its name. -/
theorem mem_linkDemands_agree (hd : p.definitions.get? name = some d) (hf : p.onDemand.get? name = some f)
    {x : Demand} (hx : x ∈ Demand.agree ⟨"Implicit function declaration", none⟩ f d) : x ∈ p.linkDemands := by
  have hdemands : p.placeholderDemands name f = Demand.agree ⟨"Implicit function declaration", none⟩ f d := by
    unfold placeholderDemands functionAt?
    rw [hd]
    rfl
  refine List.mem_append_right _ (List.mem_flatMap.2 ⟨(name, f), (SortedMap.mem_entries_iff ..).2 hf, ?_⟩)
  rw [hdemands]
  exact hx

/-! ### What a call is bound to -/

/-- The placeholder of a name is filed under it. -/
theorem get?_onDemand_placeholder (p : Program) (name : String) (sig : Signature) (location : Location) :
    (p.placeholder name sig location).2.onDemand.get? name = some (p.placeholder name sig location).1 := by
  unfold placeholder
  split
  · assumption
  · exact SortedMap.get?_insert_self ..

theorem call_of_callee? (halloc : isAllocator c.callee = false) (hc : p.callee? c = some (f, q)) :
    p.call c = q.callFunction c f := by
  unfold call
  rw [halloc, hc]
  rfl

/-- What is looked up under a key is declared under it, with a body or without. -/
theorem filed_of_functionAt? {key : String} (h : p.functionAt? key = some f) :
    ∃ l : Register, (p.table l).get? key = some f := by
  rcases Option.or_eq_some_iff.1 h with hdefined | ⟨-, hdeclared⟩
  · exact ⟨.withBody, hdefined⟩
  · exact ⟨.withoutBody, hdeclared⟩

/-- A call that no static function answers is bound to what is filed under its name. -/
theorem filed_of_callee? (hc : p.callee? c = some (f, q))
    (hstatic : p.functionAt? (functionKey c.callee c.location.file true) = none) :
    ∃ l : Register, (q.table l).get? c.callee = some f := by
  unfold callee? lookup? at hc
  rw [hstatic, Option.none_or] at hc
  cases hat : p.functionAt? c.callee with
  | some g =>
      rw [hat] at hc
      obtain ⟨rfl, rfl⟩ := Prod.mk.inj (Option.some.inj hc)
      exact filed_of_functionAt? hat
  | none =>
      rw [hat] at hc
      obtain ⟨sig, -, hsig⟩ := Option.map_eq_some_iff.1 hc
      obtain ⟨rfl, rfl⟩ := Prod.mk.inj hsig
      exact ⟨.onDemand, get?_onDemand_placeholder ..⟩

/-- What is absent in the end was never there. -/
theorem Extends.functionAt?_eq_none (h : p.Extends q) {key : String} (hq : q.functionAt? key = none) :
    p.functionAt? key = none := by
  unfold functionAt? at hq ⊢
  obtain ⟨hdefinitions, hdeclarations⟩ := Option.or_eq_none_iff.1 hq
  refine Option.or_eq_none_iff.2 ⟨?_, ?_⟩
  · refine Option.eq_none_iff_forall_not_mem.2 fun f hf => ?_
    exact nomatch (h.kept .withBody key f hf).symm.trans hdefinitions
  · refine Option.eq_none_iff_forall_not_mem.2 fun f hf => ?_
    exact nomatch (h.kept .withoutBody key f hf).symm.trans hdeclarations

theorem Relinks.functionAt?_eq (h : p.Relinks q) (key : String) : q.functionAt? key = p.functionAt? key := by
  unfold functionAt?
  rw [show q.definitions = p.definitions from h.table .withBody,
    show q.declarations = p.declarations from h.table .withoutBody]

/-- **Whatever is filed under the name of a function with a body reaches it**, once the program
is linked. -/
theorem reaches_of_filed {options : Options} {l : Register} (hwalks : Walks { options } p)
    (hd : p.definitions.get? name = some d) (hf : (p.table l).get? name = some f)
    (hshape : l ≠ .withBody → f.sameShape false d = true) (hE : p.link.store.Satisfied E) : f.Reaches E d := by
  have hdfiled : p.FilesFunction d := hwalks.extends.filesFunction (l := .withBody) hd
  have hffiled : p.FilesFunction f := hwalks.extends.filesFunction hf
  have hfresh : p.store.Fresh := Store.Recorded.fresh hwalks.grows
  rw [store_link] at hE
  have hlinked := hE.allMet hfresh
  cases l with
  | withBody =>
      obtain rfl : d = f := Option.some.inj (hd.symm.trans hf)
      exact .refl E hdfiled.1
  | withoutBody =>
      have hflow : Demand.AllMet E (Demand.along _ .forward d f) := fun x hx =>
        hlinked x (mem_linkDemands_flow hd hf hx)
      refine hflow.reaches_of_along hdfiled.2 hffiled.2 hdfiled.1 ?_
      rw [Variable.sameShape_comm]
      exact hshape (by decide)
  | onDemand =>
      have hagree : Demand.AllMet E (Demand.agree _ f d) := fun x hx => hlinked x (mem_linkDemands_agree hd hf hx)
      exact hagree.reaches_of_agree hffiled.2 hdfiled.2 hffiled.1 (hshape (by decide))

/-! ### What is passed -/

theorem Coherent.files_of_resolveOption {node : Option NodeId} {v : Variable} (h : p.Coherent)
    (hv : p.resolveOption node = .ok (some v)) : p.system.Files v := by
  cases node with
  | none => exact nomatch Except.ok.inj hv
  | some node =>
      obtain ⟨w, hw, he⟩ := Session.exists_of_map_eq_ok hv
      obtain rfl := Option.some.inj he
      exact h.files_of_resolve hw

theorem Coherent.files_of_resolveAll {nodes : List (Option NodeId)} {vs : List (Option Variable)} {i : Nat}
    {v : Variable} (h : p.Coherent) (hvs : p.resolveAll nodes = .ok vs) (hv : vs[i]? = some (some v)) :
    p.system.Files v := by
  induction nodes generalizing vs i with
  | nil =>
      rw [← Except.ok.inj hvs] at hv
      exact nomatch hv
  | cons node nodes ih =>
      obtain ⟨w, hw, hvs⟩ := exists_of_bind_eq_ok hvs
      obtain ⟨ws, hws, hvs⟩ := exists_of_bind_eq_ok hvs
      rw [← Except.ok.inj hvs] at hv
      cases i with
      | zero =>
          obtain rfl : w = some v := Option.some.inj hv
          exact h.files_of_resolveOption hw
      | succ i => exact ih hws hv

/-- What kinds owe to a call of a function: every argument flows into the parameter at its place,
and the result flows into what receives it, as far as they are of one shape. -/
def Delivers (m : Program) (E : AtomKey → Kind) (f : Variable) (args : List (Option NodeId))
    (result : Option NodeId) : Prop :=
  ∃ head ret params vs v, f = .function head ret params ∧ m.resolveAll args = .ok vs ∧
    m.resolveOption result = .ok v ∧
    (∀ (i : Nat) arg param a b, vs[i]? = some (some arg) → params[i]? = some param →
      arg.sameShape false param = true → arg.object? = some a → param.object? = some b → a.FlowsInto E b) ∧
    ∀ target a b, v = some target → ret.sameShape false target = true → ret.object? = some a →
      target.object? = some b → a.FlowsInto E b

variable {m : Program} {args : List (Option NodeId)} {result : Option NodeId}

/-- A call delivers to every function that is reached from the one it is bound to. -/
theorem delivers_of_call (hm : m.Coherent) (hs : m.store.Fresh) (hargs : m.resolveAll args = .ok c.args)
    (hresult : m.resolveOption result = .ok c.result) (halloc : isAllocator c.callee = false)
    (hc : m.callee? c = some (f, q)) (hf : q.system.Files f) (hreaches : f.Reaches E d)
    (hE : (m.call c).store.Satisfied E) : m.Delivers E d args result := by
  have hsystem := (extends_callee? hc).system
  have hq : q.store.Fresh := (allocates_callee? .refl c hc).grows.fresh hs
  rw [call_of_callee? halloc hc, store_callFunction] at hE
  have hcalled := hE.allMet hq
  obtain @⟨head, head', ret, ret', params, params', hshape, hargument, hback⟩ := hreaches
  simp only [Variable.sameShape, Bool.and_eq_true] at hshape
  obtain ⟨hret, hparams⟩ : q.system.Files ret ∧ ∀ v ∈ params, q.system.Files v := by
    cases hf with
    | function _ hret hparams => exact ⟨hret, hparams⟩
  -- The call is met by the function it is bound to, so what passes between it and the other function
  -- passes in two flows.  Their shapes are those of the bound function, which has as many parameters.
  refine ⟨head', ret', params', c.args, c.result, rfl, hargs, hresult, ?_, ?_⟩
  · intro i arg param' a b harg hparam' hsame ha hb
    have hlength := Variable.length_eq_of_sameShapes hshape.2
    obtain ⟨param, hparam⟩ : ∃ param, params[i]? = some param :=
      ⟨_, List.getElem?_eq_getElem (hlength ▸ (List.getElem?_eq_some_iff.1 hparam').1)⟩
    have hparts := Variable.sameShape_getElem? hshape.2 hparam hparam'
    rw [Variable.sameShape_comm] at hparts
    have hpassed := Variable.sameShape_trans hsame hparts
    obtain ⟨o, ho⟩ := Variable.exists_object_of_sameShape hpassed ha
    have hfiled := (hm.files_of_resolveAll hargs harg).of_continues hsystem
    have hinto := (hcalled.left.of_passArgs harg hparam).of_along hpassed
      (hfiled.eq_of_id_eq (hparams param (List.mem_of_getElem? hparam))) ha ho
    have hdepth := (Variable.eq_of_sameLevels (Variable.sameLevels_of_sameShape hpassed ha ho)).1
    exact hinto.trans hdepth (hargument i param param' o b hparam hparam' ho hb)
  · intro target a b htarget hsame ha hb
    have hreturned := Variable.sameShape_trans hshape.1 hsame
    have hparts := hshape.1
    rw [Variable.sameShape_comm] at hparts
    obtain ⟨o, ho⟩ := Variable.exists_object_of_sameShape hparts ha
    have hreceived : Demand.AllMet E (Demand.receive c.location ret c.result) := hcalled.right
    rw [htarget] at hreceived hresult
    have hfiled := (hm.files_of_resolveOption hresult).of_continues hsystem
    have hinto := hreceived.of_along hreturned (hret.eq_of_id_eq hfiled) ho hb
    have hdepth := (Variable.eq_of_sameLevels (Variable.sameLevels_of_sameShape hparts ha ho)).1
    exact (hback a o ha ho).trans hdepth hinto

/-! ### Calls on a walk -/

/-- A call is bound to something if it carries a signature or finds a function. -/
theorem exists_callee? (h : c.signature.isSome = true ∨ (p.lookup? c.callee c.location.file).isSome = true) :
    ∃ f q, p.callee? c = some (f, q) := by
  unfold callee?
  split
  · exact ⟨_, p, rfl⟩
  · rename_i hnone
    rw [hnone] at h
    obtain ⟨sig, hsig⟩ := Option.isSome_iff_exists.1 (h.resolve_right Bool.false_ne_true)
    rw [hsig]
    exact ⟨_, _, rfl⟩

/-- What a call was bound to stays filed on the walk that follows. -/
theorem filed_of_walks {l : Register} {key : String} (hwalks : (m.call c).Walks p)
    (halloc : isAllocator c.callee = false) (hc : m.callee? c = some (f, q))
    (hf : (q.table l).get? key = some f) : (p.table l).get? key = some f := by
  have hcallee := q.extends_callFunction c f
  rw [← call_of_callee? halloc hc] at hcallee
  exact (hcallee.trans hwalks.extends).kept l key f hf

/-- A call that was replayed on a walk delivers to every function that is reached from what it was
bound to, once the program is linked. -/
theorem delivers_of_filed {options : Options} {l : Register} {key : String} (hbefore : Walks { options } m)
    (hwalks : (m.call c).Walks p) (hargs : m.resolveAll args = .ok c.args)
    (hresult : m.resolveOption result = .ok c.result) (halloc : isAllocator c.callee = false)
    (hc : m.callee? c = some (f, q)) (hf : (q.table l).get? key = some f) (hreaches : f.Reaches E d)
    (hE : p.link.store.Satisfied E) : m.Delivers E d args result := by
  have hfresh : m.store.Fresh := Store.Recorded.fresh hbefore.grows
  have hcoherent : m.Coherent := hbefore.coherent (coherent_start options)
  have hfunction := (hbefore.extends.trans (extends_callee? hc)).filesFunction hf
  exact delivers_of_call hcoherent hfresh hargs hresult halloc hc hfunction.2 hreaches
    (hE.of_grows ((m.records_call c).grows.fresh hfresh) (hwalks.grows.trans p.grows_link))

/-- A call that was replayed on a walk delivers to the function with the body once the program is
linked, if what else is filed under the name has its shape. -/
theorem delivers_of_walks {options : Options} (hbefore : Walks { options } m) (hwalks : (m.call c).Walks p)
    (hreplayed : Walks { options } p) (hargs : m.resolveAll args = .ok c.args)
    (hresult : m.resolveOption result = .ok c.result) (halloc : isAllocator c.callee = false)
    (hbound : c.signature.isSome = true ∨ (m.lookup? c.callee c.location.file).isSome = true)
    (hstatic : p.functionAt? (functionKey c.callee c.location.file true) = none)
    (hd : p.definitions.get? c.callee = some d)
    (hshape : ∀ l f, l ≠ .withBody → (p.table l).get? c.callee = some f → f.sameShape false d = true)
    (hE : p.link.store.Satisfied E) : m.Delivers E d args result := by
  obtain ⟨f, q, hc⟩ := exists_callee? hbound
  have hcalled : m.Extends (m.call c) := m.extends_call c
  obtain ⟨l, hf⟩ := filed_of_callee? hc ((hcalled.trans hwalks.extends).functionAt?_eq_none hstatic)
  have hfiled := filed_of_walks hwalks halloc hc hf
  have hreaches := reaches_of_filed hreplayed hd hfiled (fun hl => hshape l f hl hfiled) hE
  exact delivers_of_filed hbefore hwalks hargs hresult halloc hc hf hreaches hE

end Program

namespace Session

open Program (Walks Turn)

variable {s t : Session} {options : Options} {r : Recording} {outcome : Outcome} {canDump : Bool}

/-- **Calls reach the function with the body, whatever the order of events.**  A session was
built, and its first solution leaves nothing unsatisfied.  A function with a body is filed under
a name, and what else is filed under the name has its shape.  A call of the name was replayed
that carries a signature or found a function then, and no function is static in the file where
it is located.  Then its arguments reach the parameters of the function with the body, and what
that function returns reaches what receives the result. -/
theorem calls_reach_definition {name : String} {d : Variable} {sig : Option Signature}
    {args : List (Option NodeId)} {result : Option NodeId} {size : Option BoundsExpr} {location : Location}
    {i j : Nat} (hbuild : (start options r).build = .ok (.ok (), s))
    (hsolve : s.solve canDump = .ok (.ok outcome, t)) (hsolved : outcome.isSolved = true)
    (halloc : Program.isAllocator name = false) (hd : s.program.definitions.get? name = some d)
    (hdeclared : ∀ f, s.program.declarations.get? name = some f → f.sameShape false d = true)
    (honDemand : ∀ f, s.program.onDemand.get? name = some f → f.sameShape false d = true)
    (he : r.event? j i = some (.call name sig args result size location))
    (hstatic : s.program.functionAt? (Program.functionKey name location.file true) = none) :
    (∃ m, Before options r j i m) ∧ ∀ m, Before options r j i m →
      (sig.isSome = true ∨ (m.lookup? name location.file).isSome = true) →
      m.Delivers t.program.store.value d args result := by
  obtain ⟨m, m', p, hbefore, hstep, hwalks, hlink⟩ := exists_before hbuild he
  refine ⟨⟨m, hbefore⟩, fun n hn hbound => ?_⟩
  rw [hn.eq hbefore] at hbound ⊢
  obtain ⟨houtcome, hprogram⟩ := program_of_solve hsolve
  have hE : p.link.store.Satisfied t.program.store.value := by
    rw [hprogram, ← hlink]
    exact Store.satisfied_solve (houtcome ▸ hsolved)
  have htable : ∀ l, s.program.table l = p.table l := hlink ▸ p.relinks_link.table
  have hstatic : p.functionAt? (Program.functionKey name location.file true) = none := by
    rw [hlink, p.relinks_link.functionAt?_eq] at hstatic
    exact hstatic
  have hd : (p.table .withBody).get? name = some d := htable .withBody ▸ hd
  have hshape : ∀ l f, l ≠ .withBody → (p.table l).get? name = some f → f.sameShape false d = true := by
    intro l f hl hf
    rw [← htable] at hf
    cases l with
    | withBody => exact absurd rfl hl
    | withoutBody => exact hdeclared f hf
    | onDemand => exact honDemand f hf
  have hreplayed : Walks { options } p := (hbefore.walks.trans (Turn.event hstep).walks).trans hwalks
  cases hstep with
  | call hargs hresult =>
      exact Program.delivers_of_walks hbefore.walks hwalks hreplayed hargs hresult halloc hbound hstatic hd hshape hE

/-! ### Concrete sessions -/

/-- The declaration of a function that takes a pointer and returns one. -/
def pointerFunction (isDefinition isStatic : Bool) (location : Location) : Decl where
  name := "f"
  location := location
  type := .function (pointerTo intType) [pointerTo intType] false
  kind := .function isDefinition isStatic []

/-- An unchecked pointer is passed to a function that is declared after the call, and defined in
another file. -/
def earlyCall : Recording where
  units := [
    { file := "a.c"
      events := [
        .declare 0 (localPointer "p" 1), .declare 1 (localPointer "q" 2), .wild 0 ⟨"why", none⟩,
        .call "f" (some { ret := pointerTo intType, params := [pointerTo intType] }) [some 0] (some 1) none
          ⟨"a.c", 3, 1, none⟩,
        .declare 2 (pointerFunction false false ⟨"a.c", 4, 1, none⟩)] },
    { file := "b.c", events := [.declare 0 (pointerFunction true false ⟨"b.c", 1, 1, none⟩)] }]

/-- The function with the body, to which the call delivers. -/
def earlyCallee : Variable :=
  .function ⟨10, "f", "f", ["arg0"], true, false⟩ (.object ⟨8, "f$ret", [⟨6, .pointer⟩], "int"⟩)
    [.object ⟨9, "arg0", [⟨7, .pointer⟩], "int"⟩]

/-- The pointer reaches the parameter of the function that was defined last, and what it returns
comes back. -/
theorem earlyCall_delivers :
    ((start {} earlyCall).build = .ok (.ok (), ofRecording earlyCall) ∧
      (ofRecording earlyCall).solve false =
        .ok (.ok (ofRecording earlyCall).program.solve.1, (ofRecording earlyCall).after (.solve false)) ∧
      (ofRecording earlyCall).program.solve.1.isSolved = true ∧
      (ofRecording earlyCall).program.definitions.get? "f" = some earlyCallee ∧
      earlyCall.event? 0 3 = some (.call "f" (some { ret := pointerTo intType, params := [pointerTo intType] })
        [some 0] (some 1) none ⟨"a.c", 3, 1, none⟩) ∧
      (ofRecording earlyCall).program.functionAt? (Program.functionKey "f" "a.c" true) = none) ∧
    (∃ m, Before {} earlyCall 0 3 m) ∧ ∀ m, Before {} earlyCall 0 3 m →
      m.Delivers ((ofRecording earlyCall).after (.solve false)).program.store.value earlyCallee [some 0] (some 1) := by
  have hbuild : (start {} earlyCall).build = .ok (.ok (), ofRecording earlyCall) := rfl
  have hsolve : (ofRecording earlyCall).solve false =
      .ok (.ok (ofRecording earlyCall).program.solve.1, (ofRecording earlyCall).after (.solve false)) :=
    solve_eq_after (by decide +kernel)
  have hsolved : (ofRecording earlyCall).program.solve.1.isSolved = true := by decide +kernel
  have hd : (ofRecording earlyCall).program.definitions.get? "f" = some earlyCallee := rfl
  have hstatic : (ofRecording earlyCall).program.functionAt? (Program.functionKey "f" "a.c" true) = none := rfl
  have hall : ∀ o : Option Variable, o.all (·.sameShape false earlyCallee) = true →
      ∀ f, o = some f → f.sameShape false earlyCallee = true := by
    rintro o ho f rfl
    exact ho
  have he : earlyCall.event? 0 3 =
      some (.call "f" (some { ret := pointerTo intType, params := [pointerTo intType] }) [some 0] (some 1) none
        ⟨"a.c", 3, 1, none⟩) := rfl
  obtain ⟨hbefore, hdelivers⟩ := calls_reach_definition hbuild hsolve hsolved (by decide) hd
    (hall _ (by decide +kernel)) (hall _ (by decide +kernel)) he hstatic
  exact ⟨⟨hbuild, hsolve, hsolved, hd, he, hstatic⟩, hbefore, fun m hm => hdelivers m hm (.inl rfl)⟩

/-- A header has a static function of the name, and a call of it is located there although another
file is visited. -/
def headerCall : Recording where
  units := [{
    file := "a.c"
    events := [
      .declare 0 (pointerFunction true true ⟨"h.h", 1, 1, none⟩),
      .declare 1 (pointerFunction true false ⟨"a.c", 2, 1, none⟩),
      .declare 2 (localPointer "p" 3), .wild 2 ⟨"why", none⟩,
      .call "f" none [some 2] none none ⟨"h.h", 9, 1, none⟩] }]

/-- The function that is not static. -/
def headerCallee : Variable :=
  .function ⟨5, "f", "f", ["arg0"], true, false⟩ (.object ⟨3, "f$ret", [⟨2, .pointer⟩], "int"⟩)
    [.object ⟨4, "arg0", [⟨3, .pointer⟩], "int"⟩]

/-- The program that the call is replayed into. -/
def headerBefore : Program :=
  ((((({} : Program).enter "a.c").toOption.getD {}).replayEvents "a.c" 0
    ((headerCall.unitOf? "a.c").elim [] (·.events.take 4))).1)

/-- It is the file of the call that counts, not the file that is visited: in the latter no function
of the name is static, and yet the call does not deliver to the function that is not.  The
pointer that is passed is unchecked, and the parameter is not. -/
theorem headerCall_undelivered :
    (start {} headerCall).build = .ok (.ok (), ofRecording headerCall) ∧
    (ofRecording headerCall).solve false =
      .ok (.ok (ofRecording headerCall).program.solve.1, (ofRecording headerCall).after (.solve false)) ∧
    (ofRecording headerCall).program.solve.1.isSolved = true ∧ headerCall.files = ["a.c"] ∧
    (ofRecording headerCall).program.functionAt? (Program.functionKey "f" "a.c" true) = none ∧
    (ofRecording headerCall).program.definitions.get? "f" = some headerCallee ∧
    (ofRecording headerCall).program.declarations.get? "f" = none ∧
    (ofRecording headerCall).program.onDemand.get? "f" = none ∧
    headerCall.event? 0 4 = some (.call "f" none [some 2] none none ⟨"h.h", 9, 1, none⟩) ∧
    Before {} headerCall 0 4 headerBefore ∧ (headerBefore.lookup? "f" "h.h").isSome = true ∧
    ¬ headerBefore.Delivers ((ofRecording headerCall).after (.solve false)).program.store.value headerCallee
      [some 2] none := by
  refine ⟨rfl, solve_eq_after (by decide +kernel), by decide +kernel, rfl, rfl, rfl, rfl, rfl, rfl,
    .intro rfl rfl rfl rfl rfl, by decide +kernel, ?_⟩
  rintro ⟨head, ret, params, vs, v, hd, hvs, -, hargument, -⟩
  have hresolved : headerBefore.resolveAll [some 2] =
      .ok [some (.object ⟨6, "p", [⟨4, .pointer⟩], "int"⟩)] := rfl
  obtain rfl := Except.ok.inj (hresolved.symm.trans hvs)
  obtain ⟨rfl, rfl, rfl⟩ := Variable.function.inj hd
  have hle := (hargument 0 _ _ _ _ rfl rfl (by decide +kernel) rfl rfl).1 4 rfl 3 rfl
  have hpassed : ((ofRecording headerCall).after (.solve false)).program.store.value 4 = .wild := by decide +kernel
  have htaken : ((ofRecording headerCall).after (.solve false)).program.store.value 3 = .ptr := by decide +kernel
  rw [hpassed, htaken] at hle
  exact absurd hle (by decide)

end Session

end PointerKinds
