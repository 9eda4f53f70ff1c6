/-
The walk over a recording.

A program is built by opening units, replaying events into them and closing them again.
Each of these is one turn, and what every turn keeps, a walk keeps.  A walk that came to
its end replayed every event: for each there was a program that it was replayed into,
which the start had led to, and which led to the program that was linked in the end.
-/
import Mathlib.Logic.Relation
import PointerKinds.Session

namespace PointerKinds

namespace Program

variable {p q : Program} {e : Event} {file : String} {i k : Nat} {es : List Event}

/-! ### One turn -/

theorem exists_of_bind_eq_ok {ε α β : Type} {x : Except ε α} {f : α → Except ε β} {b : β}
    (h : (x >>= f) = .ok b) : ∃ a, x = .ok a ∧ f a = .ok b := by
  cases x with
  | error e => exact nomatch h
  | ok a => exact ⟨a, rfl, h⟩

theorem eq_of_enter (h : p.enter file = .ok q) :
    p.unit = none ∧ q = { p with unit := some ∅, files := p.files.insert file } := by
  unfold enter at h
  split at h
  · cases h
  · exact ⟨by assumption, (Except.ok.inj h).symm⟩

theorem eq_of_exit (h : p.exit = .ok q) : p.unit ≠ none ∧ q = { p with unit := none } := by
  unfold exit at h
  split at h
  · rename_i nodes hunit
    exact ⟨by rw [hunit]; exact Option.some_ne_none nodes, (Except.ok.inj h).symm⟩
  · exact nomatch h

/-- An event is replayed: its nodes mean something, and what it says is done. -/
inductive Step (p : Program) : Event → Program → Prop
  | declare {node : NodeId} {d : Decl} {nodes : SortedMap NodeId Location} (hunit : p.unit = some nodes) :
      Step p (.declare node d) ({ p with unit := some (nodes.insert node d.location) }.declare d).2
  | assign {target source : NodeId} {location : Option Location} {v w : Variable}
      (hv : p.resolve target = .ok v) (hw : p.resolve source = .ok w) :
      Step p (.assign target source location) (p.assign v w location)
  | cast {target source : NodeId} {targetType sourceType : CType} {location : Option Location}
      {v w : Variable} (hv : p.resolve target = .ok v) (hw : p.resolve source = .ok w) :
      Step p (.cast target targetType source sourceType location)
        (p.cast targetType v sourceType w location)
  | call {callee : String} {signature : Option Signature} {args : List (Option NodeId)}
      {result : Option NodeId} {allocSize : Option BoundsExpr} {location : Location}
      {vs : List (Option Variable)} {v : Option Variable}
      (hargs : p.resolveAll args = .ok vs) (hresult : p.resolveOption result = .ok v) :
      Step p (.call callee signature args result allocSize location)
        (p.call { callee, signature, args := vs, result := v, allocSize, location })
  | wild {node : NodeId} {why : Explanation} {v : Variable} (hv : p.resolve node = .ok v) :
      Step p (.wild node why) (p.makeWild v why)
  | bounds {node : NodeId} {expr : BoundsExpr} {v : Variable} (hv : p.resolve node = .ok v) :
      Step p (.bounds node expr) (p.addBounds v expr)

theorem step_of_replayEvent (h : p.replayEvent e = .ok q) : p.Step e q := by
  cases e with
  | declare node d =>
      unfold replayEvent declareNode register at h
      cases hunit : p.unit with
      | none =>
          rw [hunit] at h
          exact nomatch h
      | some nodes =>
          rw [hunit] at h
          rw [← Except.ok.inj h]
          exact .declare hunit
  | assign target source location =>
      obtain ⟨v, hv, h⟩ := exists_of_bind_eq_ok h
      obtain ⟨w, hw, h⟩ := exists_of_bind_eq_ok h
      rw [← Except.ok.inj h]
      exact .assign hv hw
  | cast target targetType source sourceType location =>
      obtain ⟨v, hv, h⟩ := exists_of_bind_eq_ok h
      obtain ⟨w, hw, h⟩ := exists_of_bind_eq_ok h
      rw [← Except.ok.inj h]
      exact .cast hv hw
  | call callee signature args result allocSize location =>
      obtain ⟨vs, hargs, h⟩ := exists_of_bind_eq_ok h
      obtain ⟨v, hresult, h⟩ := exists_of_bind_eq_ok h
      rw [← Except.ok.inj h]
      exact .call hargs hresult
  | wild node why =>
      obtain ⟨v, hv, h⟩ := exists_of_bind_eq_ok h
      rw [← Except.ok.inj h]
      exact .wild hv
  | bounds node expr =>
      obtain ⟨v, hv, h⟩ := exists_of_bind_eq_ok h
      rw [← Except.ok.inj h]
      exact .bounds hv

/-- A unit is opened or closed, or an event is replayed. -/
inductive Turn (p q : Program) : Prop
  | enter {file : String} (h : p.enter file = .ok q)
  | event {e : Event} (h : p.Step e q)
  | exit (h : p.exit = .ok q)

/-! ### Many turns -/

/-- One program becomes another by any number of turns. -/
def Walks : Program → Program → Prop := Relation.ReflTransGen Turn

theorem Walks.trans {p' : Program} (h : p.Walks q) (h' : q.Walks p') : p.Walks p' :=
  Relation.ReflTransGen.trans h h'

theorem Turn.walks (h : p.Turn q) : p.Walks q := .single h

/-- What every turn keeps, a walk keeps. -/
theorem Walks.keeps {P : Program → Prop} (hP : ∀ p q, p.Turn q → P p → P q) (h : p.Walks q) (hp : P p) :
    P q := by
  induction h with
  | refl => exact hp
  | tail _ hturn ih => exact hP _ _ hturn ih

theorem walks_replayEvents (p : Program) (file : String) (i : Nat) (es : List Event) :
    p.Walks (p.replayEvents file i es).1 := by
  induction es generalizing p i with
  | nil => exact .refl
  | cons e es ih =>
      unfold replayEvents
      split
      · rename_i q he
        exact (Turn.event (step_of_replayEvent he)).walks.trans (ih q (i + 1))
      · exact .refl

theorem walks_visit (p : Program) (r : Recording) (file : String) : p.Walks (p.visit r file).1 := by
  unfold visit
  split
  · exact walks_replayEvents p file 0 _
  · exact .refl

/-- Events that were all replayed were replayed one after the other. -/
theorem exists_of_replayEvents (h : p.replayEvents file i es = (q, none)) (he : es[k]? = some e) :
    ∃ m m', p.replayEvents file i (es.take k) = (m, none) ∧ m.Step e m' ∧ m'.Walks q := by
  induction es generalizing p i k with
  | nil => exact nomatch he
  | cons d es ih =>
      unfold replayEvents at h
      cases hd : p.replayEvent d with
      | error err =>
          rw [hd] at h
          exact nomatch h
      | ok p' =>
          rw [hd] at h
          cases k with
          | zero =>
              obtain rfl := Option.some.inj he
              have hwalks := walks_replayEvents p' file (i + 1) es
              rw [show p'.replayEvents file (i + 1) es = (q, none) from h] at hwalks
              exact ⟨p, p', rfl, step_of_replayEvent hd, hwalks⟩
          | succ k =>
              obtain ⟨m, m', hm, hstep, hwalks⟩ := ih h he
              refine ⟨m, m', ?_, hstep, hwalks⟩
              rw [List.take_succ_cons, replayEvents, hd]
              exact hm

end Program

/-- An event of a recording, by the number of the file that is visited and its own.  A file
that is visited again has the same events again. -/
def Recording.event? (r : Recording) (j i : Nat) : Option Event :=
  (r.files[j]?.bind r.unitOf?).bind (·.events[i]?)

namespace Session

open Program (Walks Step Turn exists_of_bind_eq_ok)

variable {s : Session} {options : Options} {r : Recording} {p q : Program} {files : List String}
  {file : String} {result : Except SessionError Unit} {i j : Nat} {e : Event}

/-- What visiting a file, and then others, comes to. -/
theorem visitAll_cons (h : visitAll r p (file :: files) = .ok (result, q)) :
    ∃ p₁ p₂ p₃ stop, p.enter file = .ok p₁ ∧ p₁.visit r file = (p₂, stop) ∧ p₂.exit = .ok p₃ ∧
      ((∃ err, stop = some (.error err) ∧ result = .error (.replay file err) ∧ q = p₃) ∨
        (stop = none ∧ visitAll r p₃ files = .ok (result, q))) := by
  unfold visitAll at h
  obtain ⟨p₁, henter, h⟩ := exists_of_bind_eq_ok h
  rcases hvisit : p₁.visit r file with ⟨p₂, stop⟩
  rw [hvisit] at h
  rcases stop with _ | fault | err
  · obtain ⟨p₃, hexit, h⟩ := exists_of_bind_eq_ok h
    exact ⟨p₁, p₂, p₃, none, henter, hvisit, hexit, .inr ⟨rfl, h⟩⟩
  · exact nomatch h
  · obtain ⟨p₃, hexit, h⟩ := exists_of_bind_eq_ok h
    obtain ⟨hresult, rfl⟩ := Prod.mk.inj (Except.ok.inj h)
    exact ⟨p₁, p₂, p₃, some (.error err), henter, hvisit, hexit, .inl ⟨err, rfl, hresult.symm, rfl⟩⟩

theorem visitAll_cons_of_visit {p₁ p₂ p₃ : Program} (henter : p.enter file = .ok p₁)
    (hvisit : p₁.visit r file = (p₂, none)) (hexit : p₂.exit = .ok p₃) :
    visitAll r p (file :: files) = visitAll r p₃ files := by
  simp only [visitAll, henter, hvisit, hexit, bind, Except.bind]

theorem walks_visitAll (h : visitAll r p files = .ok (result, q)) : p.Walks q := by
  induction files generalizing p with
  | nil =>
      rw [← (Prod.mk.inj (Except.ok.inj h)).2]
      exact .refl
  | cons file files ih =>
      obtain ⟨p₁, p₂, p₃, stop, henter, hvisit, hexit, hrest⟩ := visitAll_cons h
      have hwalks := p₁.walks_visit r file
      rw [hvisit] at hwalks
      have h₃ : p.Walks p₃ := ((Turn.enter henter).walks.trans hwalks).trans (Turn.exit hexit).walks
      rcases hrest with ⟨err, -, -, rfl⟩ | ⟨-, hrest⟩
      · exact h₃
      · exact h₃.trans (ih hrest)

/-- Files that were all visited were visited one after the other. -/
theorem exists_of_visitAll (h : visitAll r p files = .ok (.ok (), q)) (hfile : files[j]? = some file) :
    ∃ p₀ p₁ p₂, visitAll r p (files.take j) = .ok (.ok (), p₀) ∧ p₀.enter file = .ok p₁ ∧
      p₁.visit r file = (p₂, none) ∧ p₂.Walks q := by
  induction files generalizing p j with
  | nil => exact nomatch hfile
  | cons f files ih =>
      obtain ⟨p₁, p₂, p₃, stop, henter, hvisit, hexit, ⟨err, -, herr, -⟩ | ⟨rfl, hrest⟩⟩ :=
        visitAll_cons h
      · exact nomatch herr
      cases j with
      | zero =>
          obtain rfl := Option.some.inj hfile
          exact ⟨p, p₁, p₂, rfl, henter, hvisit, (Turn.exit hexit).walks.trans (walks_visitAll hrest)⟩
      | succ j =>
          obtain ⟨q₀, q₁, q₂, hbefore, hmine⟩ := ih hrest hfile
          refine ⟨q₀, q₁, q₂, ?_, hmine⟩
          rw [List.take_succ_cons, visitAll_cons_of_visit henter hvisit hexit]
          exact hbefore

/-- A session that was built visited all files and linked what came of it. -/
theorem exists_of_build (h : (start options r).build = .ok (.ok (), s)) :
    ∃ p, visitAll r { options } r.files = .ok (.ok (), p) ∧ s.program = p.link ∧ s.built = true := by
  unfold build at h
  rw [if_neg (show ¬ (start options r).built = true from Bool.false_ne_true)] at h
  obtain ⟨⟨result, p⟩, hvisit, h⟩ := exists_of_bind_eq_ok h
  cases result with
  | error e => exact nomatch h
  | ok _ =>
      rw [← (Prod.mk.inj (Except.ok.inj h)).2]
      exact ⟨p, hvisit, rfl, rfl⟩

/-! ### The program before an event -/

/-- The program that event `i` of file `j` is replayed into: the files before were visited,
the file's unit was opened, and the events before were replayed into it. -/
inductive Before (options : Options) (r : Recording) (j i : Nat) (m : Program) : Prop
  | intro {file : String} {u : RecordedUnit} {p p' : Program} (hfile : r.files[j]? = some file)
      (hunit : r.unitOf? file = some u)
      (hvisited : visitAll r { options } (r.files.take j) = .ok (.ok (), p))
      (hopened : p.enter file = .ok p')
      (hreplayed : p'.replayEvents file 0 (u.events.take i) = (m, none))

theorem Before.walks {m : Program} (h : Before options r j i m) : Walks { options } m := by
  obtain @⟨file, u, p, p', -, -, hvisited, hopened, hreplayed⟩ := h
  have hwalks := p'.walks_replayEvents file 0 (u.events.take i)
  rw [hreplayed] at hwalks
  exact ((walks_visitAll hvisited).trans (Turn.enter hopened).walks).trans hwalks

/-- There is only one program before an event. -/
theorem Before.eq {m n : Program} (h : Before options r j i m) (h' : Before options r j i n) : m = n := by
  obtain ⟨hfile, hunit, hvisited, hopened, hreplayed⟩ := h
  obtain ⟨hfile', hunit', hvisited', hopened', hreplayed'⟩ := h'
  obtain rfl := Option.some.inj (hfile.symm.trans hfile')
  obtain rfl := Option.some.inj (hunit.symm.trans hunit')
  obtain rfl := (Prod.mk.inj (Except.ok.inj (hvisited.symm.trans hvisited'))).2
  obtain rfl := Except.ok.inj (hopened.symm.trans hopened')
  exact (Prod.mk.inj (hreplayed.symm.trans hreplayed')).1

/-- **A session that was built replayed every event**, and was linked after that. -/
theorem exists_before (h : (start options r).build = .ok (.ok (), s)) (he : r.event? j i = some e) :
    ∃ m m' p, Before options r j i m ∧ m.Step e m' ∧ m'.Walks p ∧ s.program = p.link := by
  obtain ⟨p, hvisit, hlink, -⟩ := exists_of_build h
  obtain ⟨u, hu, he⟩ := Option.bind_eq_some_iff.1 he
  obtain ⟨file, hfile, hunit⟩ := Option.bind_eq_some_iff.1 hu
  obtain ⟨p₀, p₁, p₂, hvisited, hopened, hmine, hrest⟩ := exists_of_visitAll hvisit hfile
  unfold Program.visit at hmine
  rw [hunit] at hmine
  obtain ⟨m, m', hreplayed, hstep, hwalks⟩ := Program.exists_of_replayEvents hmine he
  exact ⟨m, m', p, .intro hfile hunit hvisited hopened hreplayed, hstep, hwalks.trans hrest, hlink⟩

end Session

end PointerKinds
