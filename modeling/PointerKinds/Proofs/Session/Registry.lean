/-
Functions stay filed.

A function is filed in one of three registers: among those with a body, among those without,
or among the placeholders for what was called before it was declared.  Along a walk the
registers only grow: what is filed under a key is never replaced, and what is new is a
function that was declared with all its parts.  Linking reads the registers and leaves them
alone.  Neither touches the groups of unchecked atoms, which are made by solving.
-/
import PointerKinds.Proofs.Session.Numbering

namespace PointerKinds

/-- Where functions are filed. -/
inductive Register where
  | withBody
  | withoutBody
  | onDemand
deriving DecidableEq

namespace Program

variable {p q : Program} {f : Variable} {key : String} {l : Register}

/-- What is filed in a register. -/
def table (p : Program) : Register → SortedMap String Variable
  | .withBody => p.definitions
  | .withoutBody => p.declarations
  | .onDemand => p.onDemand

theorem knownFunction?_eq (p : Program) (key : String) (isDefinition : Bool) :
    p.knownFunction? key isDefinition =
      (p.table (if isDefinition then .withBody else .withoutBody)).get? key := by
  cases isDefinition <;> rfl

/-- A function that was declared with all its parts. -/
def FilesFunction (p : Program) (f : Variable) : Prop := f.isFunction = true ∧ p.system.Files f

/-- A program that knows what another knows: the same is filed, and more functions may be. -/
structure Extends (p q : Program) : Prop where
  options : q.options = p.options
  rootCauses : q.rootCauses = p.rootCauses
  system : p.system.Continues q.system
  kept : ∀ l key f, (p.table l).get? key = some f → (q.table l).get? key = some f
  added : ∀ l key f, (q.table l).get? key = some f → (p.table l).get? key = some f ∨ q.FilesFunction f

theorem Extends.trans {m : Program} (h : p.Extends q) (h' : q.Extends m) : p.Extends m where
  options := h'.options.trans h.options
  rootCauses := h'.rootCauses.trans h.rootCauses
  system := h.system.trans h'.system
  kept l key f hf := h'.kept l key f (h.kept l key f hf)
  added l key f hf := by
    rcases h'.added l key f hf with hq | hf
    · rcases h.added l key f hq with hp | hf
      · exact .inl hp
      · exact .inr ⟨hf.1, hf.2.of_continues h'.system⟩
    · exact .inr hf

/-- A change that leaves the registers alone, however much it declares. -/
theorem Extends.of_eq (hoptions : q.options = p.options) (hcauses : q.rootCauses = p.rootCauses)
    (hsystem : p.system.Continues q.system) (htable : ∀ l, q.table l = p.table l) : p.Extends q where
  options := hoptions
  rootCauses := hcauses
  system := hsystem
  kept l key f hf := by rwa [htable]
  added l key f hf := .inl (by rwa [htable] at hf)

theorem Extends.refl (p : Program) : p.Extends p := .of_eq rfl rfl (.refl p.system) fun _ => rfl

theorem extends_withStore (p : Program) (s : Store) : p.Extends (p.withStore s) :=
  .of_eq rfl rfl (.refl p.system) fun l => by cases l <;> rfl

theorem extends_withSystem {sys : System} (hsystem : p.system.Continues sys) :
    p.Extends { p with system := sys } :=
  .of_eq rfl rfl hsystem fun l => by cases l <;> rfl

theorem extends_withUnit (p : Program) (unit : Option (SortedMap NodeId Location)) : p.Extends { p with unit } :=
  .of_eq rfl rfl (.refl p.system) fun l => by cases l <;> rfl

/-! ### Declarations -/

theorem extends_index (p : Program) (v : Variable) (location : Location) : p.Extends (p.index v location) :=
  .of_eq rfl rfl (.refl p.system) fun l => by cases l <;> rfl

theorem extends_indexParams (p : Program) (f : Variable) (params : List ParamDecl) :
    p.Extends (p.indexParams f params) :=
  indexParams_induction (fun q param _ v _ h => h.trans (q.extends_index v param.location)) (.refl p)

theorem table_indexParams (p : Program) (f : Variable) (params : List ParamDecl) :
    (p.indexParams f params).table l = p.table l := by
  have hindex : ∀ (q : Program) (v : Variable) (location : Location), (q.index v location).table l = q.table l := by
    intro q v location
    cases l <;> rfl
  exact indexParams_induction (P := fun q => q.table l = p.table l)
    (fun q param _ v _ h => (hindex q v param.location).trans h) rfl

/-- Filing a function under a key that is free. -/
theorem extends_of_insert (hoptions : q.options = p.options) (hcauses : q.rootCauses = p.rootCauses)
    (hsystem : p.system.Continues q.system) (hfree : (p.table l).get? key = none) (hf : q.FilesFunction f)
    (htable : q.table l = (p.table l).insert key f) (hothers : ∀ l', l' ≠ l → q.table l' = p.table l') :
    p.Extends q where
  options := hoptions
  rootCauses := hcauses
  system := hsystem
  kept l' key' g hg := by
    by_cases hl : l' = l
    · subst hl
      rw [htable, SortedMap.get?_insert, if_neg]
      · exact hg
      · rintro rfl
        exact nomatch hfree.symm.trans hg
    · rwa [hothers l' hl]
  added l' key' g hg := by
    by_cases hl : l' = l
    · subst hl
      rw [htable, SortedMap.get?_insert] at hg
      split at hg
      · exact .inr (Option.some.inj hg ▸ hf)
      · exact .inl hg
    · exact .inl (by rwa [hothers l' hl] at hg)

theorem extends_fileFunction {isDefinition : Bool} (hfree : p.knownFunction? key isDefinition = none)
    (hf : p.FilesFunction f) : p.Extends (p.fileFunction key isDefinition f) := by
  rw [knownFunction?_eq] at hfree
  cases isDefinition with
  | true =>
      refine extends_of_insert (l := .withBody) rfl rfl (.refl p.system) hfree hf rfl fun l hl => ?_
      cases l <;> first | rfl | exact absurd rfl hl
  | false =>
      refine extends_of_insert (l := .withoutBody) rfl rfl (.refl p.system) hfree hf rfl fun l hl => ?_
      cases l <;> first | rfl | exact absurd rfl hl

theorem extends_declareFunction (p : Program) (d : Decl) (isDefinition isStatic : Bool)
    (params : List ParamDecl) : p.Extends (p.declareFunction d isDefinition isStatic params).2 := by
  simp only [declareFunction]
  split
  · exact (p.extends_index _ _).trans (extends_indexParams _ _ _)
  · rename_i hfree
    obtain ⟨hsystem, hfiled⟩ := p.system.declareFunction_files d.name
      (functionKey d.name d.location.file isStatic) (signatureOf d.type) (params.map (·.name))
      isDefinition (some d.location)
    refine (((extends_withSystem hsystem).trans (extends_index _ _ _)).trans (extends_indexParams _ _ _)).trans
      (extends_fileFunction ?_ ⟨rfl, ?_⟩)
    · rw [knownFunction?_eq] at hfree ⊢
      rw [table_indexParams]
      exact hfree
    · rw [system_indexParams]
      exact hfiled

theorem extends_declareVariable (p : Program) (d : Decl) : p.Extends (p.declareVariable d).2 := by
  obtain ⟨hsystem, -⟩ := p.system.declareType_files (some d.location) d.name true [] d.type
  exact (extends_withSystem hsystem).trans (extends_index _ _ _)

theorem extends_note (p : Program) (v : Variable) (name : String) (kind : DeclKind) :
    p.Extends (p.note v name kind) := by
  cases kind <;> exact .of_eq rfl rfl (.refl p.system) fun l => by cases l <;> rfl

theorem extends_distrust (p : Program) (v : Variable) (d : Decl) : p.Extends (p.distrust v d) := by
  unfold distrust
  split
  · exact .refl p
  · exact p.extends_withStore _

theorem extends_declare (p : Program) (d : Decl) : p.Extends (p.declare d).2 := by
  unfold declare
  split
  · exact .refl p
  · simp only [declareNew]
    refine Extends.trans ?_ ((extends_note _ _ _ _).trans (extends_distrust _ _ _))
    split
    · exact p.extends_declareFunction d _ _ _
    · exact p.extends_declareVariable d

/-! ### Calls -/

theorem extends_placeholder (p : Program) (name : String) (sig : Signature) (location : Location) :
    p.Extends (p.placeholder name sig location).2 := by
  unfold placeholder
  split
  · exact .refl p
  · rename_i hfree
    obtain ⟨hsystem, hfiled⟩ := p.system.declareFunction_files name name sig [] false (some location)
    refine extends_of_insert (l := .onDemand) rfl rfl hsystem hfree ⟨rfl, hfiled⟩ rfl fun l hl => ?_
    cases l <;> first | rfl | exact absurd rfl hl

theorem extends_callee? {c : CallSite} (hc : p.callee? c = some (f, q)) : p.Extends q := by
  unfold callee? at hc
  split at hc
  · rw [← (Prod.mk.inj (Option.some.inj hc)).2]
    exact .refl p
  · obtain ⟨sig, -, hsig⟩ := Option.map_eq_some_iff.1 hc
    obtain rfl : (p.placeholder c.callee sig c.location).2 = q := congrArg Prod.snd hsig
    exact p.extends_placeholder _ _ _

theorem extends_callFunction (p : Program) (c : CallSite) (f : Variable) : p.Extends (p.callFunction c f) := by
  unfold callFunction
  split
  · exact p.extends_withStore _
  · exact .refl p

theorem extends_callAllocator (p : Program) (c : CallSite) : p.Extends (p.callAllocator c) := by
  unfold callAllocator
  split
  · split
    · exact p.extends_withStore _
    · split
      · unfold addByteCount
        split
        · exact .of_eq rfl rfl (.refl p.system) fun l => by cases l <;> rfl
        · exact .refl p
      · exact .refl p
  · exact .refl p

theorem extends_call (p : Program) (c : CallSite) : p.Extends (p.call c) := by
  unfold call
  split
  · exact p.extends_callAllocator c
  · split
    · rename_i f q hc
      exact (extends_callee? hc).trans (q.extends_callFunction c f)
    · exact p.extends_withStore _

/-! ### Walking and linking -/

theorem Step.extends {e : Event} (hstep : p.Step e q) : p.Extends q := by
  cases hstep with
  | declare => exact (p.extends_withUnit _).trans (extends_declare _ _)
  | assign | cast | wild => exact p.extends_withStore _
  | call => exact p.extends_call _
  | bounds =>
      unfold addBounds
      split
      · exact .of_eq rfl rfl (.refl p.system) fun l => by cases l <;> rfl
      · exact .refl p

theorem Turn.extends (hturn : p.Turn q) : p.Extends q := by
  cases hturn with
  | enter henter =>
      rw [(eq_of_enter henter).2]
      exact .of_eq rfl rfl (.refl p.system) fun l => by cases l <;> rfl
  | event hstep => exact hstep.extends
  | exit hexit =>
      rw [(eq_of_exit hexit).2]
      exact p.extends_withUnit none

/-- **Along a walk, functions stay filed.** -/
theorem Walks.extends (hwalks : p.Walks q) : p.Extends q :=
  hwalks.keeps (P := p.Extends) (fun _ _ hturn hp => hp.trans hturn.extends) (.refl p)

/-- Whatever was filed since the start is a function declared with all its parts. -/
theorem Extends.filesFunction {options : Options} (h : Extends { options } p)
    (hf : (p.table l).get? key = some f) : p.FilesFunction f := by
  rcases h.added l key f hf with hf | hf
  · cases l <;> exact nomatch hf
  · exact hf

/-- A change that leaves all but the store and the notes on bodies alone. -/
structure Relinks (p q : Program) : Prop where
  options : q.options = p.options
  rootCauses : q.rootCauses = p.rootCauses
  declared : q.system.declared = p.system.declared
  table : ∀ l, q.table l = p.table l

theorem Relinks.trans {m : Program} (h : p.Relinks q) (h' : q.Relinks m) : p.Relinks m where
  options := h'.options.trans h.options
  rootCauses := h'.rootCauses.trans h.rootCauses
  declared := h'.declared.trans h.declared
  table l := (h'.table l).trans (h.table l)

theorem Relinks.refl (p : Program) : p.Relinks p := ⟨rfl, rfl, rfl, fun _ => rfl⟩

theorem relinks_withStore (p : Program) (s : Store) : p.Relinks (p.withStore s) :=
  ⟨rfl, rfl, rfl, fun l => by cases l <;> rfl⟩

theorem relinks_setExtern (p : Program) (key : String) (hasBody : Bool) :
    p.Relinks (p.setExtern key hasBody) :=
  ⟨rfl, rfl, rfl, fun l => by cases l <;> rfl⟩

theorem relinks_markExtern (p : Program) (name : String) (f : Variable) : p.Relinks (p.markExtern name f) := by
  simp only [markExtern]
  split
  · exact (p.relinks_setExtern name false).trans (relinks_withStore _ _)
  · exact p.relinks_setExtern name false

theorem relinks_linkFunction (p : Program) (key : String) : p.Relinks (p.linkFunction key) := by
  unfold linkFunction
  split
  · exact (p.relinks_withStore _).trans (relinks_setExtern _ _ _)
  · exact p.relinks_setExtern key true
  · exact p.relinks_markExtern key _
  · exact .refl p

theorem relinks_linkPlaceholder (p : Program) (name : String) (f : Variable) :
    p.Relinks (p.linkPlaceholder name f) := by
  unfold linkPlaceholder
  split
  · exact p.relinks_withStore _
  · exact p.relinks_markExtern name f

theorem Relinks.foldl {α : Type} {step : Program → α → Program} (hstep : ∀ (p : Program) a, p.Relinks (step p a))
    (l : List α) (p : Program) : p.Relinks (l.foldl step p) := by
  induction l generalizing p with
  | nil => exact .refl p
  | cons a rest ih => exact (hstep p a).trans (ih _)

/-- **Linking leaves the registers alone.** -/
theorem relinks_link (p : Program) : p.Relinks p.link := by
  have hplaceholder : ∀ (p : Program) (e : String × Variable), p.Relinks (p.linkPlaceholder e.1 e.2) :=
    fun p e => p.relinks_linkPlaceholder e.1 e.2
  exact ((p.relinks_withStore _).trans (.foldl relinks_linkFunction _ _)).trans (.foldl hplaceholder _ _)

end Program

end PointerKinds
