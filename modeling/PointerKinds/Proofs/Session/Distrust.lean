/-
What becomes of declarations in files that may not be changed.

A declaration that makes or files a variable is distrusted on the spot: unless its file may be
changed or its name is one of the trusted ones, every atom of the variable is pinned, those of
the parameters too, which are filed along with a function.  A declaration at a location that
means something already is not distrusted again, for it gives what an earlier one filed there.

So whatever a declaration gives is unchecked in the end, unless it was filed by a declaration
that is exempt.  Names are trusted whatever they name.  A function called `free` is one that a
library has, and so are its parameters; a field or a global of that name is trusted as well.
-/
import PointerKinds.Proofs.Session.Identity
import PointerKinds.Proofs.Session.Locations

namespace PointerKinds

/-- A declaration that is not distrusted, for its file or for its name. -/
def Decl.IsExempt (o : Options) (d : Decl) : Prop := o.isWritable d.location.file = true ∨ Program.isTrusted d.name = true

namespace Store

open Demand (AllMet)

variable {s₀ s : Store} {l : List Demand} {E : AtomKey → Kind}

/-- **What satisfies a store meets all demands that it records.** -/
theorem Records.allMet (h : s₀.Records l s) (hs₀ : s₀.Fresh) (hE : s.Satisfied E) : AllMet E l := by
  induction h with
  | refl => exact fun d hd => absurd hd List.not_mem_nil
  | allocate h ht ih => exact ih (hE.of_grows (h.grows.fresh hs₀) ht.grows)
  | @impose s l h d ih =>
      have hs : s.Fresh := h.grows.fresh hs₀
      intro d' hd'
      rcases List.mem_append.1 hd' with hd' | hd'
      · exact ih (hE.of_grows hs (Grows.refl.impose d)) d' hd'
      · rw [List.mem_singleton.1 hd']
        exact hE.met hs

end Store

namespace Program

variable {p q : Program} {e : Event} {d : Decl} {node : NodeId} {L : Location} {v : Variable}
  {l : List (Program × Event)} {E : AtomKey → Kind} {options : Options}

/-! ### What is filed is distrusted -/

/-- What a declaration files is the variable that it declares or a parameter of it, each at its
place. -/
theorem exists_of_mem_filingsOf (h : (L, v) ∈ p.filingsOf d) :
    p.variableAt? d.location = none ∧ L ∈ d.locations ∧ ∀ x ∈ v.atoms, x ∈ (p.declareNew d).1.atoms := by
  unfold filingsOf at h
  cases hnew : p.variableAt? d.location with
  | some u =>
      rw [hnew] at h
      exact absurd h List.not_mem_nil
  | none =>
      rw [hnew] at h
      refine ⟨rfl, ?_⟩
      rcases List.mem_cons.1 h with h | h
      · obtain ⟨rfl, rfl⟩ := Prod.mk.inj h
        exact ⟨List.mem_cons_self, fun x hx => hx⟩
      · obtain ⟨⟨param, w⟩, hparam, h⟩ := List.mem_map.1 h
        obtain ⟨rfl, rfl⟩ := Prod.mk.inj h
        obtain ⟨hmem, hw⟩ := List.of_mem_zip hparam
        refine ⟨List.mem_cons_of_mem _ ?_, fun x hx => Variable.mem_atoms_of_mem_params hw hx⟩
        cases hkind : d.kind with
        | function isDefinition isStatic params =>
            rw [hkind] at hmem
            exact List.mem_map_of_mem hmem
        | _ =>
            rw [hkind] at hmem
            exact absurd hmem List.not_mem_nil

/-- A declaration that makes or files something demands that it is distrusted. -/
theorem demands_declare {nodes : SortedMap NodeId Location} (hunit : p.unit = some nodes)
    (hnew : p.variableAt? d.location = none) :
    p.demands (.declare node d) = p.distrustDemands (p.declareNew d).1 d := by
  simp only [demands, register, hunit, declareDemands]
  rw [show ({ p with unit := some (nodes.insert node d.location) } : Program).variableAt? d.location = none from hnew,
    declareNew_withUnit]
  rfl

/-- **What a declaration files is unchecked**, unless the declaration is exempt. -/
theorem Step.wild_of_filed (hstep : p.Step (.declare node d) q) (hs : p.store.Fresh) (hE : q.store.Satisfied E)
    (hfiled : (L, v) ∈ p.filingsOf d) (hexempt : ¬ d.IsExempt p.options) : ∀ x ∈ v.atoms, E x = .wild := by
  obtain ⟨hnew, -, hatoms⟩ := exists_of_mem_filingsOf hfiled
  have hmet := hstep.records.allMet hs hE
  cases hstep with
  | declare hunit =>
      rw [demands_declare hunit hnew, distrustDemands, if_neg] at hmet
      · exact fun x hx => le_antisymm (Kind.le_wild _) (hmet.of_throughout x (hatoms x hx))
      · rwa [Bool.or_eq_true]

/-- What a declaration gives was filed by an event before it, or is filed by itself. -/
theorem exists_filing_of_declareNode (hl : Logs { options } l p) (h : p.declareNode node d = .ok (v, q)) :
    ∃ x ∈ l ++ [(p, .declare node d)], (d.location, v) ∈ x.1.filings x.2 := by
  rcases declareNode_cases h with hat | ⟨-, hhead⟩
  · obtain ⟨vs, hvs, hv⟩ := Option.bind_eq_some_iff.1 hat
    obtain ⟨x, hx, hfiled⟩ := hl.exists_filing hvs (List.mem_of_mem_head? hv)
    exact ⟨x, List.mem_append_left _ hx, hfiled⟩
  · exact ⟨_, List.mem_append_right _ (List.mem_singleton_self _), List.mem_of_mem_head? hhead⟩

end Program

namespace Session

variable {s t : Session} {options : Options} {r : Recording} {outcome : Outcome} {canDump : Bool}
  {i j : Nat} {node : NodeId} {d : Decl}

/-- **Nothing declared in a file that may not be changed is trusted**, unless what the declaration
gives was filed by a declaration that is exempt. -/
theorem declared_wild_or_exempt (hbuild : (start options r).build = .ok (.ok (), s))
    (hsolve : s.solve canDump = .ok (.ok outcome, t)) (hsolved : outcome.isSolved = true)
    (he : r.event? j i = some (.declare node d)) :
    ∃ m v q, Before options r j i m ∧ m.declareNode node d = .ok (v, q) ∧
      ((∀ x ∈ v.atoms, t.program.store.value x = .wild) ∨
        ∃ j' i' m' node' d', (j' < j ∨ j' = j ∧ i' ≤ i) ∧ r.event? j' i' = some (.declare node' d') ∧
          Before options r j' i' m' ∧ (d.location, v) ∈ m'.filingsOf d' ∧ d.location ∈ d'.locations ∧
          d'.IsExempt options) := by
  obtain ⟨m, _, _, hbefore, hstep, -, -⟩ := exists_before hbuild he
  obtain ⟨l, hl, hevents⟩ := hbefore.exists_logs
  obtain ⟨⟨v, q⟩, hdeclare⟩ : ∃ made, m.declareNode node d = .ok made := by
    cases hstep with
    | declare hunit => exact ⟨_, Program.declareNode_of_unit hunit⟩
  obtain ⟨⟨m', e⟩, hx, hfiled⟩ := Program.exists_filing_of_declareNode hl hdeclare
  -- The event that filed what is given is one before, or this one.
  obtain ⟨j', i', hearlier, hbefore', he'⟩ : ∃ j' i', (j' < j ∨ j' = j ∧ i' ≤ i) ∧ Before options r j' i' m' ∧
      r.event? j' i' = some e := by
    rcases List.mem_append.1 hx with hx | hx
    · obtain ⟨j', i', hearlier, hmine⟩ := hevents _ hx
      exact ⟨j', i', hearlier.imp_right (And.imp_right le_of_lt), hmine⟩
    · obtain ⟨rfl, rfl⟩ := Prod.mk.inj (List.mem_singleton.1 hx)
      exact ⟨j, i, .inr ⟨rfl, le_rfl⟩, hbefore, he⟩
  cases e with
  | declare node' d' =>
      refine ⟨m, v, q, hbefore, hdeclare, or_iff_not_imp_right.2 fun hnone => ?_⟩
      have hoptions : m'.options = options := hbefore'.walks.extends.options
      have hexempt : ¬ d'.IsExempt m'.options := fun hexempt => hnone
        ⟨j', i', m', node', d', hearlier, he', hbefore', hfiled, (Program.exists_of_mem_filingsOf hfiled).2.1,
          hoptions ▸ hexempt⟩
      obtain ⟨m₁, n, p, hbefore₁, hstep', hwalks, hlink⟩ := exists_before hbuild he'
      obtain rfl := hbefore'.eq hbefore₁
      have hfresh : m'.store.Fresh := Store.Recorded.fresh hbefore'.walks.grows
      have hgrows : n.store.Grows s.program.store := hlink ▸ hwalks.grows.trans p.grows_link
      have hE := (satisfied_of_solve hsolve hsolved).of_grows (hstep'.grows.fresh hfresh) hgrows
      exact hstep'.wild_of_filed hfresh hE hfiled hexempt
  | _ => exact absurd hfiled List.not_mem_nil

/-! ### Concrete sessions -/

/-- Only the files of the project may be changed. -/
def projectOnly : Options where
  baseDir := some "/proj"

/-- A field of a record that a header of the system declares. -/
def systemField (name : String) : Decl where
  name := name
  location := ⟨"/usr/include/ops.h", 3, 5, none⟩
  type := pointerTo intType
  kind := .field "ops"

/-- A file of the project that includes the header. -/
def includesField (name : String) : Recording where
  units := [{ file := "/proj/a.c", events := [.declare 0 (systemField name)] }]

/-- The session after the file was visited. -/
def fieldBuilt (name : String) : Session :=
  ((start projectOnly (includesField name)).build.toOption.map (·.2)).getD (start projectOnly (includesField name))

/-- A field of any other name is unchecked. -/
theorem fieldNext_wild :
    ((start projectOnly (includesField "next")).build = .ok (.ok (), fieldBuilt "next") ∧
      (fieldBuilt "next").solve false =
        .ok (.ok (fieldBuilt "next").program.solve.1, (fieldBuilt "next").after (.solve false)) ∧
      (fieldBuilt "next").program.solve.1.isSolved = true ∧
      (includesField "next").event? 0 0 = some (.declare 0 (systemField "next"))) ∧
    ∃ m v q, Before projectOnly (includesField "next") 0 0 m ∧ m.declareNode 0 (systemField "next") = .ok (v, q) ∧
      ∀ x ∈ v.atoms, ((fieldBuilt "next").after (.solve false)).program.store.value x = .wild := by
  have hbuild : (start projectOnly (includesField "next")).build = .ok (.ok (), fieldBuilt "next") := rfl
  have hsolve : (fieldBuilt "next").solve false =
      .ok (.ok (fieldBuilt "next").program.solve.1, (fieldBuilt "next").after (.solve false)) :=
    solve_eq_after (by decide +kernel)
  have hsolved : (fieldBuilt "next").program.solve.1.isSolved = true := by decide +kernel
  have he : (includesField "next").event? 0 0 = some (.declare 0 (systemField "next")) := rfl
  obtain ⟨m, v, q, hbefore, hdeclare, hwild⟩ := declared_wild_or_exempt hbuild hsolve hsolved he
  refine ⟨⟨hbuild, hsolve, hsolved, he⟩, m, v, q, hbefore, hdeclare, hwild.resolve_right ?_⟩
  rintro ⟨j, i, m', node, d, hearlier, hd, -, -, -, hexempt⟩
  obtain ⟨rfl, rfl⟩ : j = 0 ∧ i = 0 := by omega
  obtain ⟨rfl, rfl⟩ := Event.declare.inj (Option.some.inj (he.symm.trans hd))
  rcases hexempt with hwritable | htrusted
  · exact absurd hwritable (by decide +kernel)
  · exact absurd htrusted (by decide +kernel)

/-- A field called `free` is trusted as if it were the function. -/
theorem fieldFree_trusted :
    (start projectOnly (includesField "free")).build = .ok (.ok (), fieldBuilt "free") ∧
    (fieldBuilt "free").solve false =
      .ok (.ok (fieldBuilt "free").program.solve.1, (fieldBuilt "free").after (.solve false)) ∧
    (fieldBuilt "free").program.solve.1.isSolved = true ∧
    (includesField "free").event? 0 0 = some (.declare 0 (systemField "free")) ∧
    projectOnly.isWritable (systemField "free").location.file = false ∧
    ∃ m v q, Before projectOnly (includesField "free") 0 0 m ∧ m.declareNode 0 (systemField "free") = .ok (v, q) ∧
      v.atoms = [0] ∧ ((fieldBuilt "free").after (.solve false)).program.store.value 0 = .ptr := by
  refine ⟨rfl, solve_eq_after (by decide +kernel), by decide +kernel, rfl, by decide +kernel, ?_⟩
  exact ⟨_, _, _, .intro rfl rfl rfl rfl rfl, rfl, rfl, by decide +kernel⟩

end Session

end PointerKinds
