/-
What is filed under which location, and by which event.

Only declarations file anything.  One at a location that is new files its variable there, and
the parameters of a function under the locations of their own declarations, whether or not the
function was known before.  Any number of variables may come to be filed under one location, and
the location means the one of the lowest number.

So what a location means after some events can be told from what it meant before and from what
the events filed there: the number is the least of all of these.  The events of a walk are kept
in a log for that, each with the program that it was replayed into.
-/
import Mathlib.Order.Lattice.Nat
import PointerKinds.Proofs.Session.Placement

namespace PointerKinds

/-! ### Tables of what is declared where -/

/-- A table with one variable more under a location. -/
def fileAt (m : SortedMap Location VariableSet) (f : Location × Variable) : SortedMap Location VariableSet :=
  m.insert f.1 ((m.getD f.1 ∅).insert f.2.id f.2)

/-- The number of the first variable under a location. -/
def numberAt? (m : SortedMap Location VariableSet) (L : Location) : Option VariableId :=
  ((m.get? L).bind (·.values.head?)).map (·.id)

/-- Variables are listed under their own numbers. -/
def Numbered (m : SortedMap Location VariableSet) : Prop :=
  ∀ L vs, m.get? L = some vs → ∀ e ∈ vs.entries, e.2.id = e.1

section Tables

variable {m : SortedMap Location VariableSet} {f : Location × Variable} {fs : List (Location × Variable)}
  {L : Location} {v : Variable} {i : VariableId}

theorem get?_fileAt (m : SortedMap Location VariableSet) (f : Location × Variable) (L : Location) :
    (fileAt m f).get? L = if L = f.1 then some ((m.getD L ∅).insert f.2.id f.2) else m.get? L := by
  unfold fileAt
  rw [SortedMap.get?_insert]
  split
  · next h => rw [h]
  · rfl

theorem mem_entries_getD {e : VariableId × Variable} (he : e ∈ (m.getD L ∅).entries) :
    ∃ vs, m.get? L = some vs ∧ e ∈ vs.entries := by
  unfold SortedMap.getD at he
  cases hvs : m.get? L with
  | none =>
      rw [hvs] at he
      exact absurd he List.not_mem_nil
  | some vs =>
      rw [hvs] at he
      exact ⟨vs, rfl, he⟩

theorem Numbered.fileAt (h : Numbered m) (f : Location × Variable) : Numbered (fileAt m f) := by
  intro L vs hvs e he
  rw [get?_fileAt] at hvs
  split at hvs
  · rw [← Option.some.inj hvs, show e = (e.1, e.2) from rfl, SortedMap.mem_entries_iff, SortedMap.get?_insert] at he
    split at he
    · next hid => rw [← Option.some.inj he, hid]
    · obtain ⟨ws, hws, he⟩ := mem_entries_getD ((SortedMap.mem_entries_iff _ _ _).2 he)
      exact h L ws hws _ he
  · exact h L vs hvs e he

/-- What is filed becomes the first if its number is the least. -/
theorem numberAt?_fileAt (h : Numbered m) (f : Location × Variable) (L : Location) :
    numberAt? (fileAt m f) L =
      if L = f.1 then some ((numberAt? m L).elim f.2.id (min f.2.id)) else numberAt? m L := by
  have hhead : ∀ vs : VariableSet, (∀ e ∈ vs.entries, e.2.id = e.1) →
      ((vs.insert f.2.id f.2).values.head?).map (·.id) =
        some ((vs.values.head?.map (·.id)).elim f.2.id (min f.2.id)) := by
    rintro ⟨_ | ⟨e, rest⟩, hsorted⟩ hnumbered
    · rfl
    · have he : e.2.id = e.1 := hnumbered e List.mem_cons_self
      show ((SortedMap.place f.2.id f.2 (e :: rest)).map (·.2)).head?.map (·.id) = some (min f.2.id e.2.id)
      rw [SortedMap.place]
      split
      · next hlt => exact congrArg some (Nat.min_eq_left ((Nat.compare_eq_lt.1 hlt).le.trans_eq he.symm)).symm
      · next heq => exact congrArg some (Nat.min_eq_left ((Nat.compare_eq_eq.1 heq).le.trans_eq he.symm)).symm
      · next hgt => exact congrArg some (Nat.min_eq_right (he.trans_le (Nat.compare_eq_gt.1 hgt).le)).symm
  unfold numberAt?
  rw [get?_fileAt]
  split
  · rw [Option.bind_some, hhead _ fun e he => ?_]
    · unfold SortedMap.getD
      cases m.get? L <;> rfl
    · obtain ⟨vs, hvs, he⟩ := mem_entries_getD he
      exact h L vs hvs e he
  · rfl

/-- The numbers that may be meant by a location after some filing. -/
def candidates (m : SortedMap Location VariableSet) (fs : List (Location × Variable)) (L : Location) :
    Set VariableId :=
  {i | numberAt? m L = some i ∨ ∃ f ∈ fs, f.1 = L ∧ f.2.id = i}

theorem isLeast_candidates_nil : IsLeast (candidates m [] L) i ↔ numberAt? m L = some i := by
  have hmem : ∀ j, j ∈ candidates m [] L ↔ numberAt? m L = some j := by
    intro j
    refine or_iff_left ?_
    rintro ⟨f, hf, -⟩
    exact List.not_mem_nil hf
  constructor
  · exact fun h => (hmem i).1 h.1
  · exact fun h => ⟨(hmem i).2 h, fun j hj => (Option.some.inj (h.symm.trans ((hmem j).1 hj))).le⟩

/-- To file a variable first changes nothing about which number is the least. -/
theorem isLeast_candidates_cons (h : Numbered m) :
    IsLeast (candidates m (f :: fs) L) i ↔ IsLeast (candidates (fileAt m f) fs L) i := by
  have hfirst := numberAt?_fileAt h f L
  have hlater : ∀ j, j ∈ candidates m (f :: fs) L ↔
      (numberAt? m L = some j ∨ f.1 = L ∧ f.2.id = j) ∨ ∃ g ∈ fs, g.1 = L ∧ g.2.id = j := by
    intro j
    simp only [candidates, Set.mem_ofPred_eq, List.exists_mem_cons_iff, or_assoc]
  -- The table has one candidate instead of two: the lesser of them.
  have hsub : candidates (fileAt m f) fs L ⊆ candidates m (f :: fs) L := by
    intro j hj
    rw [hlater]
    refine hj.imp_left fun hj => ?_
    rw [hfirst] at hj
    split at hj
    · next hL =>
        cases hm : numberAt? m L with
        | none =>
            rw [hm] at hj
            exact .inr ⟨hL.symm, Option.some.inj hj⟩
        | some k =>
            rw [hm] at hj
            obtain rfl : min f.2.id k = j := Option.some.inj hj
            rcases min_choice f.2.id k with hmin | hmin
            · exact .inr ⟨hL.symm, hmin.symm⟩
            · exact .inl (congrArg some hmin.symm)
    · exact .inl hj
  have hbelow : ∀ j ∈ candidates m (f :: fs) L, ∃ k ∈ candidates (fileAt m f) fs L, k ≤ j := by
    intro j hj
    rcases (hlater j).1 hj with (hm | ⟨hL, rfl⟩) | hg
    · by_cases hL : L = f.1
      · rw [if_pos hL, hm] at hfirst
        exact ⟨_, .inl hfirst, Nat.min_le_right _ _⟩
      · rw [if_neg hL, hm] at hfirst
        exact ⟨j, .inl hfirst, le_rfl⟩
    · rw [if_pos hL.symm] at hfirst
      refine ⟨_, .inl hfirst, ?_⟩
      cases numberAt? m L with
      | none => exact le_rfl
      | some k => exact Nat.min_le_left _ _
    · exact ⟨j, .inr hg, le_rfl⟩
  constructor
  · intro hi
    obtain ⟨k, hk, hki⟩ := hbelow i hi.1
    have hik : i = k := le_antisymm (hi.2 (hsub hk)) hki
    exact ⟨hik ▸ hk, fun j hj => hi.2 (hsub hj)⟩
  · intro hi
    refine ⟨hsub hi.1, fun j hj => ?_⟩
    obtain ⟨k, hk, hkj⟩ := hbelow j hj
    exact (hi.2 hk).trans hkj

/-- **After some filing a location means the least number** of what it meant before and of what
was filed there. -/
theorem numberAt?_foldl_fileAt (h : Numbered m) :
    numberAt? (fs.foldl fileAt m) L = some i ↔ IsLeast (candidates m fs L) i := by
  induction fs generalizing m with
  | nil => exact isLeast_candidates_nil.symm
  | cons f fs ih => exact (ih (h.fileAt f)).trans (isLeast_candidates_cons h).symm

/-- Everything filed was there before, or is what was filed. -/
theorem mem_values_foldl_fileAt {vs : VariableSet} (hvs : (fs.foldl fileAt m).get? L = some vs) (hv : v ∈ vs.values) :
    (L, v) ∈ fs ∨ ∃ ws, m.get? L = some ws ∧ v ∈ ws.values := by
  induction fs generalizing m with
  | nil => exact .inr ⟨vs, hvs, hv⟩
  | cons f fs ih =>
      rcases ih hvs with hfs | ⟨ws, hws, hv⟩
      · exact .inl (List.mem_cons_of_mem f hfs)
      · rw [get?_fileAt] at hws
        split at hws
        · next hL =>
            rw [← Option.some.inj hws] at hv
            rcases SortedMap.mem_values_insert hv with rfl | hv
            · exact .inl (hL ▸ List.mem_cons_self)
            · obtain ⟨e, he, rfl⟩ := List.mem_map.1 hv
              obtain ⟨us, hus, he⟩ := mem_entries_getD he
              exact .inr ⟨us, hus, List.mem_map_of_mem he⟩
        · exact .inr ⟨ws, hws, hv⟩

end Tables

namespace Program

variable {p q m : Program} {e : Event} {d : Decl} {L : Location} {v : Variable} {i : VariableId}
  {l : List (Program × Event)} {options : Options}

/-! ### What an event files -/

/-- The declarations of the parameters of what is declared. -/
def params : DeclKind → List ParamDecl
  | .function _ _ params => params
  | _ => []

/-- What a declaration files, and where. -/
def filingsOf (p : Program) (d : Decl) : List (Location × Variable) :=
  match p.variableAt? d.location with
  | some _ => []
  | none =>
    (d.location, (p.declareNew d).1) ::
      ((params d.kind).zip (p.declareNew d).1.params).map fun e => (e.1.location, e.2)

/-- What an event files, and where. -/
def filings (p : Program) : Event → List (Location × Variable)
  | .declare _ d => p.filingsOf d
  | _ => []

theorem declared_indexParams (p : Program) (f : Variable) (ps : List ParamDecl) :
    (p.indexParams f ps).declared =
      ((ps.zip f.params).map fun e => (e.1.location, e.2)).foldl fileAt p.declared := by
  unfold indexParams
  induction ps.zip f.params generalizing p with
  | nil => rfl
  | cons e rest ih => exact ih (p.index e.2 e.1.location)

theorem declared_declareFunction (p : Program) (d : Decl) (isDefinition isStatic : Bool) (ps : List ParamDecl) :
    (p.declareFunction d isDefinition isStatic ps).2.declared =
      ((d.location, (p.declareFunction d isDefinition isStatic ps).1) ::
        (ps.zip (p.declareFunction d isDefinition isStatic ps).1.params).map
          fun e => (e.1.location, e.2)).foldl fileAt p.declared := by
  have hfile : ∀ (m : Program) (key : String) (f : Variable),
      (m.fileFunction key isDefinition f).declared = m.declared := by
    intro m key f
    unfold fileFunction
    split <;> rfl
  simp only [declareFunction]
  split
  · rw [declared_indexParams]
    rfl
  · rw [hfile, declared_indexParams]
    rfl

/-- **A declaration files its variable and the parameters of it**, and nothing else. -/
theorem declared_declare (p : Program) (d : Decl) :
    (p.declare d).2.declared = (p.filingsOf d).foldl fileAt p.declared := by
  have hnote : ∀ (m : Program) (v : Variable), (m.note v d.name d.kind).declared = m.declared := by
    intro m v
    cases d.kind <;> rfl
  unfold declare filingsOf
  cases p.variableAt? d.location with
  | some v => rfl
  | none =>
      simp only [declareNew, (samePlaces_distrust _ _ _).declared, hnote]
      cases hkind : d.kind with
      | function isDefinition isStatic ps => exact p.declared_declareFunction d isDefinition isStatic ps
      | _ => rfl

/-- What is declared does not depend on the nodes of the unit. -/
theorem declareNew_withUnit (p : Program) (unit : Option (SortedMap NodeId Location)) (d : Decl) :
    (({ p with unit } : Program).declareNew d).1 = (p.declareNew d).1 := by
  cases hkind : d.kind with
  | function isDefinition isStatic params =>
      simp only [declareNew, hkind, declareFunction]
      rw [show ({ p with unit } : Program).knownFunction? = p.knownFunction? from rfl]
      cases p.knownFunction? (functionKey d.name d.location.file isStatic) isDefinition <;> rfl
  | _ =>
      simp only [declareNew, hkind]
      rfl

theorem filingsOf_withUnit (p : Program) (unit : Option (SortedMap NodeId Location)) (d : Decl) :
    ({ p with unit } : Program).filingsOf d = p.filingsOf d := by
  unfold filingsOf
  rw [declareNew_withUnit]
  rfl

theorem declared_callee? {c : CallSite} {f : Variable} (hc : p.callee? c = some (f, q)) : q.declared = p.declared := by
  unfold callee? at hc
  split at hc
  · rw [← (Prod.mk.inj (Option.some.inj hc)).2]
  · obtain ⟨sig, -, hsig⟩ := Option.map_eq_some_iff.1 hc
    obtain rfl : (p.placeholder c.callee sig c.location).2 = q := congrArg Prod.snd hsig
    unfold placeholder
    split <;> rfl

theorem declared_call (p : Program) (c : CallSite) : (p.call c).declared = p.declared := by
  unfold call
  split
  · exact (p.samePlaces_callAllocator c).declared
  · split
    · next f q hc => exact (q.samePlaces_callFunction c f).declared.trans (declared_callee? hc)
    · rfl

/-- **What an event files**, and that it changes nothing else that is declared. -/
theorem Step.declared (h : p.Step e q) : q.declared = (p.filings e).foldl fileAt p.declared := by
  cases h with
  | @declare node d nodes hunit =>
      rw [declared_declare, filingsOf_withUnit]
      rfl
  | assign | cast | wild => rfl
  | call => exact p.declared_call _
  | bounds => exact (p.samePlaces_addBounds _ _).declared

/-! ### Logs -/

/-- One program becomes another by turns, and these are the events that were replayed, each with
the program that it was replayed into. -/
inductive Logs : Program → List (Program × Event) → Program → Prop
  | refl (p : Program) : Logs p [] p
  | enter {p m q : Program} {file : String} {l : List (Program × Event)} (hopen : p.enter file = .ok m)
      (hrest : Logs m l q) : Logs p l q
  | event {p m q : Program} {e : Event} {l : List (Program × Event)} (hstep : p.Step e m) (hrest : Logs m l q) :
      Logs p ((p, e) :: l) q
  | exit {p m q : Program} {l : List (Program × Event)} (hclose : p.exit = .ok m) (hrest : Logs m l q) : Logs p l q

theorem Logs.walks (h : p.Logs l q) : p.Walks q := by
  induction h with
  | refl => exact .refl
  | enter hopen _ ih => exact (Turn.enter hopen).walks.trans ih
  | event hstep _ ih => exact (Turn.event hstep).walks.trans ih
  | exit hclose _ ih => exact (Turn.exit hclose).walks.trans ih

theorem Logs.trans {l' : List (Program × Event)} (h : p.Logs l m) (h' : m.Logs l' q) : p.Logs (l ++ l') q := by
  induction h with
  | refl => exact h'
  | enter hopen _ ih => exact .enter hopen (ih h')
  | event hstep _ ih => exact .event hstep (ih h')
  | exit hclose _ ih => exact .exit hclose (ih h')

/-- Every event of a log was replayed in its turn. -/
theorem Logs.exists_step {x : Program × Event} (h : p.Logs l q) (hx : x ∈ l) :
    ∃ m, p.Walks x.1 ∧ x.1.Step x.2 m ∧ m.Walks q := by
  induction h with
  | refl => exact absurd hx List.not_mem_nil
  | enter hopen _ ih =>
      obtain ⟨m, hbefore, hmine⟩ := ih hx
      exact ⟨m, (Turn.enter hopen).walks.trans hbefore, hmine⟩
  | event hstep hrest ih =>
      rcases List.mem_cons.1 hx with rfl | hx
      · exact ⟨_, .refl, hstep, hrest.walks⟩
      · obtain ⟨m, hbefore, hmine⟩ := ih hx
        exact ⟨m, (Turn.event hstep).walks.trans hbefore, hmine⟩
  | exit hclose _ ih =>
      obtain ⟨m, hbefore, hmine⟩ := ih hx
      exact ⟨m, (Turn.exit hclose).walks.trans hbefore, hmine⟩

/-- What a log files. -/
def logFilings (l : List (Program × Event)) : List (Location × Variable) := l.flatMap fun x => x.1.filings x.2

/-- **What was declared along a walk is what its events filed.** -/
theorem Logs.declared (h : p.Logs l q) : q.declared = (logFilings l).foldl fileAt p.declared := by
  induction h with
  | refl => rfl
  | enter hopen _ ih =>
      rw [ih, (eq_of_enter hopen).2]
  | event hstep _ ih =>
      rw [ih, hstep.declared, logFilings, logFilings, List.flatMap_cons, List.foldl_append]
  | exit hclose _ ih =>
      rw [ih, (eq_of_exit hclose).2]

theorem numbered_foldl {fs : List (Location × Variable)} {t : SortedMap Location VariableSet} (h : Numbered t) :
    Numbered (fs.foldl fileAt t) := by
  induction fs generalizing t with
  | nil => exact h
  | cons f fs ih => exact ih (h.fileAt f)

/-- Every walk has a log. -/
theorem Walks.exists_logs (h : p.Walks q) : ∃ l, p.Logs l q := by
  induction h using Relation.ReflTransGen.head_induction_on with
  | refl => exact ⟨[], .refl q⟩
  | head hturn _ ih =>
      obtain ⟨l, hl⟩ := ih
      cases hturn with
      | enter hopen => exact ⟨l, .enter hopen hl⟩
      | event hstep => exact ⟨_, .event hstep hl⟩
      | exit hclose => exact ⟨l, .exit hclose hl⟩

theorem Walks.numbered (h : Walks { options } p) : Numbered p.declared := by
  obtain ⟨l, hl⟩ := h.exists_logs
  rw [hl.declared]
  exact numbered_foldl fun L vs hvs => nomatch hvs

/-- Everything filed since the start was filed by an event. -/
theorem Logs.exists_filing {vs : VariableSet} (h : Logs { options } l p) (hvs : p.declared.get? L = some vs)
    (hv : v ∈ vs.values) : ∃ x ∈ l, (L, v) ∈ x.1.filings x.2 := by
  rw [h.declared] at hvs
  rcases mem_values_foldl_fileAt hvs hv with hfs | ⟨ws, hws, -⟩
  · exact List.mem_flatMap.1 hfs
  · exact nomatch hws

/-- **Along a walk, a location means the least number** of what it meant and of what was filed
there since. -/
theorem Logs.numberAt?_eq_some_iff (hp : Walks { options } p) (h : p.Logs l q) :
    numberAt? q.declared L = some i ↔ IsLeast (candidates p.declared (logFilings l) L) i := by
  rw [h.declared]
  exact numberAt?_foldl_fileAt hp.numbered

/-- What a location means, it means something from then on. -/
theorem Logs.exists_numberAt? (hp : Walks { options } p) (h : p.Logs l q)
    (hi : i ∈ candidates p.declared (logFilings l) L) : ∃ j, numberAt? q.declared L = some j :=
  ⟨_, (h.numberAt?_eq_some_iff hp).2 ⟨Nat.sInf_mem ⟨i, hi⟩, fun _ hj => Nat.sInf_le hj⟩⟩

/-- Events that were all replayed make a log, each with the program after those before it. -/
theorem exists_logs_of_replayEvents {es : List Event} {file : String} {k : Nat}
    (h : p.replayEvents file k es = (q, none)) :
    ∃ l, p.Logs l q ∧ ∀ x ∈ l, ∃ i, es[i]? = some x.2 ∧ p.replayEvents file k (es.take i) = (x.1, none) := by
  induction es generalizing p k with
  | nil =>
      rw [← (Prod.mk.inj h).1]
      exact ⟨[], .refl p, fun x hx => absurd hx List.not_mem_nil⟩
  | cons e es ih =>
      unfold replayEvents at h
      cases he : p.replayEvent e with
      | error err =>
          rw [he] at h
          exact absurd (Prod.mk.inj h).2 (Option.some_ne_none _)
      | ok p' =>
          rw [he] at h
          obtain ⟨l, hl, hx⟩ := ih h
          refine ⟨(p, e) :: l, .event (step_of_replayEvent he) hl, List.forall_mem_cons.2 ⟨⟨0, rfl, rfl⟩, ?_⟩⟩
          intro x hmem
          obtain ⟨i, hi, hbefore⟩ := hx x hmem
          refine ⟨i + 1, hi, ?_⟩
          rw [List.take_succ_cons, replayEvents, he]
          exact hbefore

end Program

namespace Session

open Program (Logs exists_logs_of_replayEvents)

variable {options : Options} {r : Recording} {p q m : Program} {files : List String} {j i : Nat}

/-! ### The log of a recording -/

/-- Files that were all visited make a log, each event with the program that it was replayed into. -/
theorem exists_logs_of_visitAll (h : visitAll r p files = .ok (.ok (), q)) :
    ∃ l, p.Logs l q ∧ ∀ x ∈ l, ∃ j i file u p₀ p₁, files[j]? = some file ∧ r.unitOf? file = some u ∧
      visitAll r p (files.take j) = .ok (.ok (), p₀) ∧ p₀.enter file = .ok p₁ ∧
      p₁.replayEvents file 0 (u.events.take i) = (x.1, none) ∧ u.events[i]? = some x.2 := by
  induction files generalizing p with
  | nil =>
      rw [← (Prod.mk.inj (Except.ok.inj h)).2]
      exact ⟨[], .refl p, fun x hx => absurd hx List.not_mem_nil⟩
  | cons file files ih =>
      obtain ⟨p₁, p₂, p₃, stop, henter, hvisit, hexit, ⟨err, -, herr, -⟩ | ⟨rfl, hrest⟩⟩ := visitAll_cons h
      · exact nomatch herr
      cases hunit : r.unitOf? file with
      | none =>
          unfold Program.visit at hvisit
          rw [hunit] at hvisit
          exact nomatch (Prod.mk.inj hvisit).2
      | some u =>
          have hreplayed : p₁.replayEvents file 0 u.events = (p₂, none) := by
            unfold Program.visit at hvisit
            rwa [hunit] at hvisit
          obtain ⟨mine, hmine, hevents⟩ := exists_logs_of_replayEvents hreplayed
          obtain ⟨later, hlater, hvisits⟩ := ih hrest
          refine ⟨mine ++ later, .enter henter (hmine.trans (.exit hexit hlater)), fun x hx => ?_⟩
          rcases List.mem_append.1 hx with hx | hx
          · obtain ⟨i, hi, hbefore⟩ := hevents x hx
            exact ⟨0, i, file, u, p, p₁, rfl, hunit, rfl, henter, hbefore, hi⟩
          · obtain ⟨j, i, f, w, q₀, q₁, hfile, hw, hvisited, hmine⟩ := hvisits x hx
            refine ⟨j + 1, i, f, w, q₀, q₁, hfile, hw, ?_, hmine⟩
            rw [List.take_succ_cons, visitAll_cons_of_visit henter hvisit hexit]
            exact hvisited

/-- **The events before an event make a log**, each with the program before itself. -/
theorem Before.exists_logs (h : Before options r j i m) :
    ∃ l, Logs { options } l m ∧ ∀ x ∈ l, ∃ j' i', (j' < j ∨ j' = j ∧ i' < i) ∧
      Before options r j' i' x.1 ∧ r.event? j' i' = some x.2 := by
  obtain @⟨file, u, p, p', hfile, hunit, hvisited, hopened, hreplayed⟩ := h
  obtain ⟨earlier, hearlier, hvisits⟩ := exists_logs_of_visitAll hvisited
  obtain ⟨mine, hmine, hevents⟩ := exists_logs_of_replayEvents hreplayed
  have hevent : ∀ {k n : Nat} {f : String} {w : RecordedUnit} {e : Event}, r.files[k]? = some f →
      r.unitOf? f = some w → w.events[n]? = some e → r.event? k n = some e := by
    intro k n f w e hf hw he
    unfold Recording.event?
    rw [hf, Option.bind_some, hw, Option.bind_some, he]
  refine ⟨earlier ++ mine, hearlier.trans (.enter hopened hmine), fun x hx => ?_⟩
  rcases List.mem_append.1 hx with hx | hx
  · obtain ⟨k, n, f, w, p₀, p₁, hf, hw, hbefore, henter, hevents, he⟩ := hvisits x hx
    have hk : k < j := by
      have hlt := (List.getElem?_eq_some_iff.1 hf).1
      rw [List.length_take] at hlt
      omega
    rw [List.getElem?_take_of_lt hk] at hf
    rw [List.take_take, Nat.min_eq_left hk.le] at hbefore
    exact ⟨k, n, .inl hk, .intro hf hw hbefore henter hevents, hevent hf hw he⟩
  · obtain ⟨n, he, hbefore⟩ := hevents x hx
    have hn : n < i := by
      have hlt := (List.getElem?_eq_some_iff.1 he).1
      rw [List.length_take] at hlt
      omega
    rw [List.getElem?_take_of_lt hn] at he
    rw [List.take_take, Nat.min_eq_left hn.le] at hbefore
    exact ⟨j, n, .inr ⟨rfl, hn⟩, .intro hfile hunit hvisited hopened hbefore, hevent hfile hunit he⟩

end Session

end PointerKinds
