/-
Building a session imposes what its recording demands, and otherwise only allocates.

An event demands what its variables demand as the program before it understood them, and
linking demands what the registers of the whole program demand.  What a recording demands is
all of this, one after the other.  So the store of a session that was built is told by its
demands, as far as those go; and it was recorded, for both imposing and allocating record.
-/
import PointerKinds.Proofs.Session.Demands
import PointerKinds.Proofs.Session.Registry

namespace PointerKinds

namespace Store

variable {s₀ s t : Store} {l l' : List Demand}

/-- The stores that some demands make of a store, imposed in order and with declarations
anywhere between them. -/
inductive Records (s₀ : Store) : List Demand → Store → Prop
  | refl : Records s₀ [] s₀
  | allocate {s t : Store} {l : List Demand} (h : Records s₀ l s) (ht : s.Allocates t) : Records s₀ l t
  | impose {s : Store} {l : List Demand} (h : Records s₀ l s) (d : Demand) :
      Records s₀ (l ++ [d]) (s.impose d)

theorem Records.trans (h : s₀.Records l s) (h' : s.Records l' t) : s₀.Records (l ++ l') t := by
  induction h' with
  | refl =>
      rw [List.append_nil]
      exact h
  | allocate _ ht ih => exact ih.allocate ht
  | impose _ d ih =>
      rw [← List.append_assoc]
      exact ih.impose d

theorem records_imposeAll (s : Store) (l : List Demand) : s.Records l (s.imposeAll l) := by
  induction l generalizing s with
  | nil => exact .refl
  | cons d rest ih => exact (Records.refl.impose d).trans (ih (s.impose d))

theorem Allocates.records (h : s.Allocates t) : s.Records [] t := Records.refl.allocate h

theorem Grows.impose (h : s₀.Grows s) (d : Demand) : s₀.Grows (s.impose d) := by
  cases d with
  | pin key k why => exact h.pin key k why
  | join a b => exact h.join a b {}
  | flow source target => exact h.flow source target

theorem Grows.imposeAll (h : s₀.Grows s) (l : List Demand) : s₀.Grows (s.imposeAll l) := by
  induction l generalizing s with
  | nil => exact h
  | cons d rest ih => exact ih (h.impose d)

theorem Records.grows (h : s₀.Records l s) : s₀.Grows s := by
  induction h with
  | refl => exact .refl
  | allocate _ ht ih => exact ih.trans ht.grows
  | impose _ d ih => exact ih.impose d

end Store

namespace Program

variable {p q : Program} {e : Event} {es : List Event} {file : String} {i : Nat}

/-! ### Events -/

/-- A new declaration is distrusted in a file that may not be changed. -/
def declareDemands (p : Program) (d : Decl) : List Demand :=
  match p.variableAt? d.location with
  | some _ => []
  | none => p.distrustDemands (p.declareNew d).1 d

/-- What an event demands of the program it is replayed into. -/
def demands (p : Program) : Event → List Demand
  | .declare node d =>
    match p.register node d.location with
    | .ok q => q.declareDemands d
    | .error _ => []
  | .assign target source location =>
    match p.resolve target, p.resolve source with
    | .ok v, .ok w => Demand.assign v w location
    | _, _ => []
  | .cast target targetType source sourceType location =>
    match p.resolve target, p.resolve source with
    | .ok v, .ok w => Demand.cast location (targetType.castSafe sourceType) v w
    | _, _ => []
  | .call callee signature args result allocSize location =>
    match p.resolveAll args, p.resolveOption result with
    | .ok args, .ok result => p.callDemands { callee, signature, args, result, allocSize, location }
    | _, _ => []
  | .wild node why =>
    match p.resolve node with
    | .ok v => Demand.throughout why .wild v
    | .error _ => []
  | .bounds .. => []

theorem distrustDemands_congr (h : q.options = p.options) (v : Variable) (d : Decl) :
    q.distrustDemands v d = p.distrustDemands v d := by
  unfold distrustDemands
  rw [h]

/-- A declaration allocates, and then demands at most to be distrusted. -/
theorem records_declare (p : Program) (d : Decl) :
    p.store.Records (p.declareDemands d) (p.declare d).2.store := by
  unfold declare declareDemands
  cases p.variableAt? d.location with
  | some v => exact .refl
  | none =>
      simp only [declareNew]
      rw [store_distrust, store_note, distrustDemands_congr (extends_note _ _ _ _).options]
      split
      · rw [distrustDemands_congr (p.extends_declareFunction d _ _ _).options]
        exact (allocates_declareFunction .refl d _ _ _).records.trans (Store.records_imposeAll _ _)
      · rw [distrustDemands_congr (p.extends_declareVariable d).options]
        exact (allocates_declareVariable .refl d).records.trans (Store.records_imposeAll _ _)

/-- A call makes at most a placeholder before it demands anything. -/
theorem records_call (p : Program) (c : CallSite) : p.store.Records (p.callDemands c) (p.call c).store := by
  unfold call callDemands
  split
  · rw [store_callAllocator]
    exact Store.records_imposeAll _ _
  · cases hc : p.callee? c with
    | some callee =>
        simp only [store_callFunction]
        exact (allocates_callee? .refl c hc).records.trans (Store.records_imposeAll _ _)
    | none =>
        simp only [store_callUnknown]
        exact Store.records_imposeAll _ _

/-- **An event imposes what it demands**, and otherwise only allocates. -/
theorem Step.records (h : p.Step e q) : p.store.Records (p.demands e) q.store := by
  cases h with
  | declare hunit =>
      simp only [demands, register, hunit]
      exact records_declare { p with unit := some _ } _
  | assign hv hw =>
      simp only [demands, hv, hw, store_assign]
      exact Store.records_imposeAll _ _
  | cast hv hw =>
      simp only [demands, hv, hw, store_cast]
      exact Store.records_imposeAll _ _
  | call hargs hresult =>
      simp only [demands, hargs, hresult]
      exact records_call p _
  | wild hv =>
      simp only [demands, hv, store_makeWild]
      exact Store.records_imposeAll _ _
  | bounds =>
      simp only [demands, addBounds]
      split <;> exact .refl

theorem Step.grows (h : p.Step e q) : p.store.Grows q.store := h.records.grows

theorem Turn.grows (h : p.Turn q) : p.store.Grows q.store := by
  cases h with
  | enter h =>
      rw [(eq_of_enter h).2]
      exact .refl
  | event h => exact h.grows
  | exit h =>
      rw [(eq_of_exit h).2]
      exact .refl

/-- **Walking only records.** -/
theorem Walks.grows (h : p.Walks q) : p.store.Grows q.store :=
  h.keeps (P := fun m => p.store.Grows m.store) (fun _ _ hturn hs => hs.trans hturn.grows) .refl

/-- What events demand, each of the program it is replayed into. -/
def replayDemands (p : Program) : List Event → List Demand
  | [] => []
  | e :: es =>
    match p.replayEvent e with
    | .ok q => p.demands e ++ q.replayDemands es
    | .error _ => []

theorem records_replayEvents (h : p.replayEvents file i es = (q, none)) :
    p.store.Records (p.replayDemands es) q.store := by
  induction es generalizing p i with
  | nil =>
      rw [← (Prod.mk.inj h).1]
      exact .refl
  | cons e es ih =>
      unfold replayEvents at h
      unfold replayDemands
      cases he : p.replayEvent e with
      | error err =>
          rw [he] at h
          exact absurd (Prod.mk.inj h).2 (Option.some_ne_none _)
      | ok p' =>
          rw [he] at h
          exact (step_of_replayEvent he).records.trans (ih h)

/-! ### Linking -/

theorem Relinks.functionDemands (h : p.Relinks q) (key : String) :
    q.functionDemands key = p.functionDemands key := by
  unfold Program.functionDemands externDemands
  rw [show q.definitions = p.definitions from h.table .withBody,
    show q.declarations = p.declarations from h.table .withoutBody, h.options]

theorem Relinks.placeholderDemands (h : p.Relinks q) (name : String) (f : Variable) :
    q.placeholderDemands name f = p.placeholderDemands name f := by
  unfold Program.placeholderDemands functionAt? externDemands
  rw [show q.definitions = p.definitions from h.table .withBody,
    show q.declarations = p.declarations from h.table .withoutBody, h.options]

/-- Steps of linking impose one after the other what each demands of the program at the start. -/
theorem Relinks.store_foldl {α : Type} {step : Program → α → Program} {demands : Program → α → List Demand}
    (hrelinks : ∀ (m : Program) a, m.Relinks (step m a))
    (hdemands : ∀ {m : Program} a, p.Relinks m → demands m a = demands p a)
    (hstep : ∀ (m : Program) a, (step m a).store = m.store.imposeAll (demands m a)) (h : p.Relinks q) (l : List α) :
    (l.foldl step q).store = q.store.imposeAll (l.flatMap (demands p)) := by
  induction l generalizing q with
  | nil => rfl
  | cons a rest ih =>
      rw [List.foldl_cons, ih (h.trans (hrelinks q a)), hstep, hdemands a h, List.flatMap_cons,
        Store.imposeAll_append]

/-- **Linking imposes what it demands.** -/
theorem store_link (p : Program) : p.link.store = p.store.imposeAll p.linkDemands := by
  have hglobals : p.Relinks p.linkGlobals := p.relinks_withStore _
  have hfunctions : p.Relinks (p.functionKeys.foldl linkFunction p.linkGlobals) :=
    hglobals.trans (.foldl relinks_linkFunction _ _)
  have honDemand : (p.functionKeys.foldl linkFunction p.linkGlobals).onDemand = p.onDemand :=
    hfunctions.table .onDemand
  have hlink : p.link = p.onDemand.entries.foldl (fun m e => m.linkPlaceholder e.1 e.2)
      (p.functionKeys.foldl linkFunction p.linkGlobals) := by
    rw [← honDemand]
    rfl
  -- No step changes a register, so what each demands can be read off the program at the start.
  have hplaceholders := hfunctions.store_foldl
    (fun m (e : String × Variable) => m.relinks_linkPlaceholder e.1 e.2)
    (fun e h => h.placeholderDemands e.1 e.2) (fun m e => m.store_linkPlaceholder e.1 e.2) p.onDemand.entries
  have hfolded := hglobals.store_foldl relinks_linkFunction (fun key h => h.functionDemands key)
    store_linkFunction p.functionKeys
  unfold linkDemands
  rw [hlink, hplaceholders, hfolded, store_linkGlobals, Store.imposeAll_append, Store.imposeAll_append]

theorem grows_link (p : Program) : p.store.Grows p.link.store := by
  rw [store_link]
  exact Store.Grows.refl.imposeAll _

end Program

namespace Session

variable {s : Session} {options : Options} {r : Recording} {p q : Program} {files : List String}

/-- What the recordings of files demand, visited in order. -/
def visitDemands (r : Recording) (p : Program) : List String → List Demand
  | [] => []
  | file :: files =>
    match p.enter file with
    | .error _ => []
    | .ok p =>
      (((r.unitOf? file).map fun u => p.replayDemands u.events).getD []) ++
        match (p.visit r file).1.exit with
        | .error _ => []
        | .ok p => visitDemands r p files

/-- **Everything that building a session demands**, in order: what its files demand, and then
what linking demands. -/
def demands (options : Options) (r : Recording) : List Demand :=
  match visitAll r { options } r.files with
  | .error _ => []
  | .ok (_, p) => visitDemands r { options } r.files ++ p.linkDemands

theorem records_visitAll (h : visitAll r p files = .ok (.ok (), q)) :
    p.store.Records (visitDemands r p files) q.store := by
  induction files generalizing p with
  | nil =>
      rw [← (Prod.mk.inj (Except.ok.inj h)).2]
      exact .refl
  | cons file files ih =>
      obtain ⟨p₁, p₂, p₃, stop, henter, hvisit, hexit, ⟨err, -, herr, -⟩ | ⟨rfl, hrest⟩⟩ := visitAll_cons h
      · exact nomatch herr
      have hopened : p₁.store = p.store := by
        rw [(Program.eq_of_enter henter).2]
        rfl
      have hclosed : p₃.store = p₂.store := by
        rw [(Program.eq_of_exit hexit).2]
        rfl
      simp only [visitDemands, henter, hvisit, hexit]
      rw [← hopened]
      refine .trans ?_ (ih hrest)
      rw [hclosed]
      unfold Program.visit at hvisit
      cases hunit : r.unitOf? file with
      | none =>
          rw [hunit] at hvisit
          exact nomatch (Prod.mk.inj hvisit).2
      | some u =>
          rw [hunit] at hvisit
          exact Program.records_replayEvents hvisit

/-- **The store of a session that was built is told by its demands.** -/
theorem records_build (h : (start options r).build = .ok (.ok (), s)) :
    Store.Records {} (demands options r) s.program.store := by
  obtain ⟨p, hvisit, hlink, -⟩ := exists_of_build h
  unfold demands
  rw [hvisit, hlink, Program.store_link]
  exact (records_visitAll hvisit).trans (Store.records_imposeAll _ _)

/-- **What was built was recorded.** -/
theorem recorded_build (h : (start options r).build = .ok (.ok (), s)) : s.program.store.Recorded :=
  (records_build h).grows

end Session

end PointerKinds
