/-
Calls of a function that is static in the file of the call.

A static function is filed under its file and its name, and a call looks there first.  What it
finds at that moment is what it is bound to for good.  So a call that comes after any
declaration of the static function reaches the one with the body: bound to the declaration
without one, it gets there through the link between the two.

A call that comes before every declaration is bound under the bare name, to a function of that
name in another file or to a placeholder.  Linking looks a placeholder up under its bare name
only, so what is passed there does not reach the static function that is declared later.
-/
import PointerKinds.Proofs.Session.Calls

namespace PointerKinds

namespace Program

variable {m p q : Program} {E : AtomKey → Kind} {c : CallSite} {d f : Variable}
  {args : List (Option NodeId)} {result : Option NodeId} {options : Options}

/-! ### What a call is bound to -/

/-- A static function of the file takes precedence over all that has its bare name. -/
theorem callee?_of_static (hstatic : p.functionAt? (functionKey c.callee c.location.file true) = some f) :
    p.callee? c = some (f, p) := by
  have hlookup : p.lookup? c.callee c.location.file = some f := by
    unfold lookup?
    rw [hstatic, Option.some_or]
  unfold callee?
  rw [hlookup]

/-! ### Calls on a walk -/

/-- A call that found a static function of its file delivers to it, and to the one with the body if
the shapes are the same. -/
theorem delivers_of_static (hbefore : Walks { options } m) (hwalks : (m.call c).Walks p)
    (hreplayed : Walks { options } p) (hargs : m.resolveAll args = .ok c.args)
    (hresult : m.resolveOption result = .ok c.result) (halloc : isAllocator c.callee = false)
    (hstatic : m.functionAt? (functionKey c.callee c.location.file true) = some f)
    (hd : p.definitions.get? (functionKey c.callee c.location.file true) = some d)
    (hE : p.link.store.Satisfied E) :
    m.Delivers E f args result ∧ (f.sameShape false d = true → m.Delivers E d args result) := by
  obtain ⟨l, hf⟩ := filed_of_functionAt? hstatic
  have hc := callee?_of_static hstatic
  have hfiled := filed_of_walks hwalks halloc hc hf
  have hdelivers : ∀ {g}, f.Reaches E g → m.Delivers E g args result := fun hreaches =>
    delivers_of_filed hbefore hwalks hargs hresult halloc hc hf hreaches hE
  refine ⟨hdelivers (.refl E (hreplayed.extends.filesFunction hfiled).1), fun hshape => hdelivers ?_⟩
  exact reaches_of_filed hreplayed hd hfiled (fun _ => hshape) hE

/-- A call that found no static function of its file delivers to what is filed under the bare
name, whatever is declared later. -/
theorem delivers_of_bare (hbefore : Walks { options } m) (hwalks : (m.call c).Walks p)
    (hreplayed : Walks { options } p) (hargs : m.resolveAll args = .ok c.args)
    (hresult : m.resolveOption result = .ok c.result) (halloc : isAllocator c.callee = false)
    (hbound : c.signature.isSome = true ∨ (m.lookup? c.callee c.location.file).isSome = true)
    (hstatic : m.functionAt? (functionKey c.callee c.location.file true) = none)
    (hE : p.link.store.Satisfied E) :
    ∃ (l : Register) (f : Variable), (p.table l).get? c.callee = some f ∧ m.Delivers E f args result := by
  obtain ⟨f, q, hc⟩ := exists_callee? hbound
  obtain ⟨l, hf⟩ := filed_of_callee? hc hstatic
  have hfiled := filed_of_walks hwalks halloc hc hf
  have hreaches := Variable.Reaches.refl E (hreplayed.extends.filesFunction hfiled).1
  exact ⟨l, f, hfiled, delivers_of_filed hbefore hwalks hargs hresult halloc hc hf hreaches hE⟩

end Program

namespace Session

open Program (Turn Walks functionKey)

variable {s t : Session} {options : Options} {r : Recording} {outcome : Outcome} {canDump : Bool}

/-- **Calls reach the static function of their file, once it is declared.**  A session was built,
and its first solution leaves nothing unsatisfied.  A static function with a body is filed for
the file where a call is located.  If the call found it, or a declaration of it that has its
shape, the arguments reach the parameters of the function with the body, and what it returns
reaches what receives the result.

If the call found neither, it is bound under the bare name for good, and delivers to what is
filed there. -/
theorem calls_reach_static {name : String} {d : Variable} {sig : Option Signature} {args : List (Option NodeId)}
    {result : Option NodeId} {size : Option BoundsExpr} {location : Location} {i j : Nat}
    (hbuild : (start options r).build = .ok (.ok (), s)) (hsolve : s.solve canDump = .ok (.ok outcome, t))
    (hsolved : outcome.isSolved = true) (halloc : Program.isAllocator name = false)
    (he : r.event? j i = some (.call name sig args result size location))
    (hd : s.program.definitions.get? (functionKey name location.file true) = some d) :
    (∃ m, Before options r j i m) ∧ ∀ m, Before options r j i m →
      (∀ f, m.functionAt? (functionKey name location.file true) = some f →
        m.Delivers t.program.store.value f args result ∧
          (f.sameShape false d = true → m.Delivers t.program.store.value d args result)) ∧
      (m.functionAt? (functionKey name location.file true) = none →
        (sig.isSome = true ∨ (m.lookup? name location.file).isSome = true) →
        ∃ (l : Register) (f : Variable), (s.program.table l).get? name = some f ∧
          m.Delivers t.program.store.value f args result) := by
  obtain ⟨m, m', p, hbefore, hstep, hwalks, hlink⟩ := exists_before hbuild he
  refine ⟨⟨m, hbefore⟩, fun n hn => ?_⟩
  obtain rfl := hn.eq hbefore
  have hE : p.link.store.Satisfied t.program.store.value := hlink ▸ satisfied_of_solve hsolve hsolved
  have htable : ∀ l, s.program.table l = p.table l := hlink ▸ p.relinks_link.table
  have hreplayed : Walks { options } p := (hbefore.walks.trans (Turn.event hstep).walks).trans hwalks
  cases hstep with
  | call hargs hresult =>
      refine ⟨fun f hstatic => ?_, fun hstatic hbound => ?_⟩
      · have hd : (p.table .withBody).get? (functionKey name location.file true) = some d := htable .withBody ▸ hd
        exact Program.delivers_of_static hbefore.walks hwalks hreplayed hargs hresult halloc hstatic hd hE
      · simp only [htable]
        exact Program.delivers_of_bare hbefore.walks hwalks hreplayed hargs hresult halloc hbound hstatic hE

/-! ### Concrete sessions -/

/-- The program that an event of the file visited first is replayed into. -/
def firstBefore (r : Recording) (file : String) (i : Nat) : Program :=
  ((({} : Program).enter file).toOption.getD {}).replayEvents file 0 ((r.unitOf? file).elim [] (·.events.take i)) |>.1

/-- The type of the function as it appears at the calls. -/
def pointerSignature : Signature where
  ret := pointerTo intType
  params := [pointerTo intType]

/-- An unchecked pointer is passed to a static function between its declaration and its definition.
A header has a function of the same name that is not static. -/
def declaredStatic : Recording where
  units := [{
    file := "a.c"
    events := [
      .declare 0 (pointerFunction true false ⟨"h.h", 1, 1, none⟩),
      .declare 1 (pointerFunction false true ⟨"a.c", 1, 1, none⟩),
      .declare 2 (localPointer "p" 2), .wild 2 ⟨"why", none⟩,
      .call "f" (some pointerSignature) [some 2] none none ⟨"a.c", 3, 1, none⟩,
      .declare 3 (pointerFunction true true ⟨"a.c", 4, 1, none⟩)] }]

/-- The static function with the body. -/
def staticCallee : Variable :=
  .function ⟨9, "f", "a.c::f", ["arg0"], true, false⟩ (.object ⟨7, "f$ret", [⟨5, .pointer⟩], "int"⟩)
    [.object ⟨8, "arg0", [⟨6, .pointer⟩], "int"⟩]

/-- Its declaration, which is what the call finds. -/
def staticDeclared : Variable :=
  .function ⟨5, "f", "a.c::f", ["arg0"], false, false⟩ (.object ⟨3, "f$ret", [⟨2, .pointer⟩], "int"⟩)
    [.object ⟨4, "arg0", [⟨3, .pointer⟩], "int"⟩]

/-- The pointer reaches the parameter of the static function, which is defined after the call. -/
theorem declaredStatic_delivers :
    ((start {} declaredStatic).build = .ok (.ok (), ofRecording declaredStatic) ∧
      (ofRecording declaredStatic).solve false =
        .ok (.ok (ofRecording declaredStatic).program.solve.1, (ofRecording declaredStatic).after (.solve false)) ∧
      (ofRecording declaredStatic).program.solve.1.isSolved = true ∧
      (ofRecording declaredStatic).program.definitions.get? (functionKey "f" "a.c" true) = some staticCallee ∧
      declaredStatic.event? 0 4 =
        some (.call "f" (some pointerSignature) [some 2] none none ⟨"a.c", 3, 1, none⟩)) ∧
    Before {} declaredStatic 0 4 (firstBefore declaredStatic "a.c" 4) ∧
    (firstBefore declaredStatic "a.c" 4).functionAt? (functionKey "f" "a.c" true) = some staticDeclared ∧
    (firstBefore declaredStatic "a.c" 4).Delivers
      ((ofRecording declaredStatic).after (.solve false)).program.store.value staticCallee [some 2] none := by
  have hbuild : (start {} declaredStatic).build = .ok (.ok (), ofRecording declaredStatic) := rfl
  have hsolve : (ofRecording declaredStatic).solve false =
      .ok (.ok (ofRecording declaredStatic).program.solve.1, (ofRecording declaredStatic).after (.solve false)) :=
    solve_eq_after (by decide +kernel)
  have hsolved : (ofRecording declaredStatic).program.solve.1.isSolved = true := by decide +kernel
  have he : declaredStatic.event? 0 4 =
      some (.call "f" (some pointerSignature) [some 2] none none ⟨"a.c", 3, 1, none⟩) := rfl
  have hd : (ofRecording declaredStatic).program.definitions.get? (functionKey "f" "a.c" true) = some staticCallee := rfl
  have hbefore : Before {} declaredStatic 0 4 (firstBefore declaredStatic "a.c" 4) := .intro rfl rfl rfl rfl rfl
  have hstatic : (firstBefore declaredStatic "a.c" 4).functionAt? (functionKey "f" "a.c" true) = some staticDeclared := rfl
  have hshape : staticDeclared.sameShape false staticCallee = true := by decide +kernel
  obtain ⟨-, hcalls⟩ := calls_reach_static hbuild hsolve hsolved (by decide) he hd
  have hfound := (hcalls _ hbefore).1 staticDeclared hstatic
  exact ⟨⟨hbuild, hsolve, hsolved, hd, he⟩, hbefore, hstatic, hfound.2 hshape⟩

/-- The same without the declaration, so the call comes first. -/
def lateStatic : Recording where
  units := [{
    file := "a.c"
    events := [
      .declare 0 (localPointer "p" 1), .wild 0 ⟨"why", none⟩,
      .call "f" (some pointerSignature) [some 0] none none ⟨"a.c", 2, 1, none⟩,
      .declare 1 (pointerFunction true true ⟨"a.c", 3, 1, none⟩)] }]

/-- The static function that is defined after the call. -/
def lateCallee : Variable :=
  .function ⟨6, "f", "a.c::f", ["arg0"], true, false⟩ (.object ⟨4, "f$ret", [⟨3, .pointer⟩], "int"⟩)
    [.object ⟨5, "arg0", [⟨4, .pointer⟩], "int"⟩]

/-- What stands for the function that is called. -/
def latePlaceholder : Variable :=
  .function ⟨3, "f", "f", ["arg0"], false, false⟩ (.object ⟨1, "f$ret", [⟨1, .pointer⟩], "int"⟩)
    [.object ⟨2, "arg0", [⟨2, .pointer⟩], "int"⟩]

/-- A call that comes before every declaration of the static function of its file does not reach it,
although the shapes are the same: the placeholder is never linked to it.  The pointer that is
passed is unchecked, and the parameter is not. -/
theorem lateStatic_undelivered :
    (start {} lateStatic).build = .ok (.ok (), ofRecording lateStatic) ∧
    (ofRecording lateStatic).solve false =
      .ok (.ok (ofRecording lateStatic).program.solve.1, (ofRecording lateStatic).after (.solve false)) ∧
    (ofRecording lateStatic).program.solve.1.isSolved = true ∧
    (ofRecording lateStatic).program.definitions.get? (functionKey "f" "a.c" true) = some lateCallee ∧
    (ofRecording lateStatic).program.declarations.get? (functionKey "f" "a.c" true) = none ∧
    (ofRecording lateStatic).program.onDemand.get? "f" = some latePlaceholder ∧
    latePlaceholder.sameShape false lateCallee = true ∧
    lateStatic.event? 0 2 = some (.call "f" (some pointerSignature) [some 0] none none ⟨"a.c", 2, 1, none⟩) ∧
    Before {} lateStatic 0 2 (firstBefore lateStatic "a.c" 2) ∧
    ¬ (firstBefore lateStatic "a.c" 2).Delivers
      ((ofRecording lateStatic).after (.solve false)).program.store.value lateCallee [some 0] none := by
  refine ⟨rfl, solve_eq_after (by decide +kernel), by decide +kernel, rfl, rfl, rfl, by decide +kernel, rfl,
    .intro rfl rfl rfl rfl rfl, ?_⟩
  rintro ⟨head, ret, params, vs, v, hd, hvs, -, hargument, -⟩
  have hresolved : (firstBefore lateStatic "a.c" 2).resolveAll [some 0] =
      .ok [some (.object ⟨0, "p", [⟨0, .pointer⟩], "int"⟩)] := rfl
  obtain rfl := Except.ok.inj (hresolved.symm.trans hvs)
  obtain ⟨rfl, rfl, rfl⟩ := Variable.function.inj hd
  have hle := (hargument 0 _ _ _ _ rfl rfl (by decide +kernel) rfl rfl).1 0 rfl 4 rfl
  have hpassed : ((ofRecording lateStatic).after (.solve false)).program.store.value 0 = .wild := by decide +kernel
  have htaken : ((ofRecording lateStatic).after (.solve false)).program.store.value 4 = .ptr := by decide +kernel
  rw [hpassed, htaken] at hle
  exact absurd hle (by decide)

end Session

end PointerKinds
