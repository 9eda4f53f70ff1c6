/-
What a dump tells.

A dump knows no numbers.  It says what a constraint is by its text and what an atom is by its
name, so it tells about a store what can be told by these; and that is all there is to tell.
Different constraints of one store say different things, for a formula is created once, and what
says different things reads differently (`Formula.text_inj`).  With the names of atoms it is the
same.  So no line of a dump can be taken for another, and no entry of its table is overwritten by
a later one.

That every constraint in force has a line, and every atom an entry, needs two invariants of the
store: what is top-level exists (`Filed.known`), and the atoms with a kind are the registered
ones (`Tallied.listed`).  Both are kept by every operation, also where a constraint is taken out
while it is erased.
-/
import PointerKinds.Store.Dump
import PointerKinds.Proofs.Constraint.Spelling
import PointerKinds.Proofs.Store.Interning
import PointerKinds.Proofs.Store.Tally
import Mathlib.Data.List.Nodup

namespace PointerKinds

namespace Store

variable {s : Store} {id id' : ConstraintId}

/-! ### The text of a constraint -/

/-- The text of the constraint with a number. -/
def text? (s : Store) (id : ConstraintId) : Option String := (s.formula? id).map Formula.text

/-- Following the numbers of parts from a number that stands for nothing gives nothing. -/
theorem readWithin_of_not_lt {α : Type} (r : Reading α) (h : ¬ id < s.arena.length) (depth : Nat) :
    s.readWithin r depth id = none := by
  have hnone : s.shape? id = none := by
    rw [shape?, formula?, constraint?, List.getElem?_eq_none (Nat.not_lt.1 h)]
    rfl
  cases depth with
  | zero => rfl
  | succ depth => rw [readWithin, hnone]

/-- Following the numbers of parts ends, on every number, and spells the formula out. -/
theorem Reachable.readWithin_text (h : s.Reachable) {depth : Nat} (hdepth : id < depth) :
    s.readWithin .text depth id = s.text? id := by
  obtain ⟨calls, rfl⟩ := h.exists_performAll
  have hlog := logged_empty.performAll .empty calls
  unfold text?
  cases hf : (Store.performAll {} calls).formula? id with
  | some f => rw [hlog.readWithin_eq h .text hdepth hf, Reading.text_ofFormula, Option.map_some]
  | none =>
      refine readWithin_of_not_lt .text (fun hlt => ?_) depth
      obtain ⟨f, hf'⟩ := exists_formula? hlt
      exact absurd (hf.symm.trans hf') (by simp)

theorem exists_text?_iff : (∃ text, s.text? id = some text) ↔ id < s.arena.length := by
  unfold text?
  constructor
  · rintro ⟨text, htext⟩
    obtain ⟨f, hf, -⟩ := Option.map_eq_some_iff.1 htext
    exact formula?_lt hf
  · intro hlt
    obtain ⟨f, hf⟩ := exists_formula? hlt
    exact ⟨f.text, by rw [hf, Option.map_some]⟩

/-- No two constraints of a store read alike. -/
theorem Reachable.text?_inj (h : s.Reachable) {text : String} (hid : s.text? id = some text)
    (hid' : s.text? id' = some text) : id = id' := by
  obtain ⟨f, hf, rfl⟩ := Option.map_eq_some_iff.1 hid
  obtain ⟨g, hg, htext⟩ := Option.map_eq_some_iff.1 hid'
  rw [Formula.text_inj.1 htext] at hg
  exact h.formula?_inj hf hg

/-! ### The lines -/

/-- A line of a dump shows the constraint with a number: its text and its reason. -/
def Shows (s : Store) (id : ConstraintId) (line : String × String) : Prop :=
  ∃ c, s.constraint? id = some c ∧ line = (c.formula.text, c.why.reason)

theorem forall₂_filterMap {α β : Type} {f : α → Option β} {l : List α} (h : ∀ a ∈ l, ∃ b, f a = some b) :
    List.Forall₂ (fun a b => f a = some b) l (l.filterMap f) := by
  induction l with
  | nil => exact .nil
  | cons a rest ih =>
      obtain ⟨b, hb⟩ := h a List.mem_cons_self
      rw [List.filterMap_cons_some hb]
      exact .cons hb (ih fun x hx => h x (List.mem_cons_of_mem a hx))

/-- The lines of a dump show the constraints in force, one each, in their order. -/
theorem Filed.shows_dump (h : s.Filed) : List.Forall₂ s.Shows s.active s.dump.constraints := by
  have hline : ∀ id ∈ s.active, ∃ line,
      ((s.constraint? id).map fun c => (c.formula.text, c.why.reason)) = some line := by
    intro id hid
    have hlt : id < s.arena.length := h.known id (isActive_iff.1 (mem_active.1 hid)).1
    exact ⟨_, by rw [constraint?, List.getElem?_eq_getElem hlt, Option.map_some]⟩
  refine (forall₂_filterMap hline).imp fun id line hid => ?_
  obtain ⟨c, hc, hshown⟩ := Option.map_eq_some_iff.1 hid
  exact ⟨c, hc, hshown.symm⟩

theorem texts_dump (s : Store) : s.dump.constraints.map Prod.fst = s.active.filterMap s.text? := by
  unfold dump
  rw [List.map_filterMap]
  refine List.filterMap_congr fun id _ => ?_
  rw [text?, formula?, Option.map_map, Option.map_map]
  rfl

theorem Reachable.nodup_texts_dump (h : s.Reachable) : (s.dump.constraints.map Prod.fst).Nodup := by
  have hids : s.active.Nodup := s.pairwise_active.imp Nat.ne_of_lt
  rw [texts_dump]
  exact hids.filterMap fun _ _ _ hid hid' => h.text?_inj hid hid'

/-! ### The table of kinds -/

/-- The atoms with a kind are the registered ones, each once. -/
theorem Tallied.perm_keys (h : s.Tallied) : s.env.keys.Perm s.atoms.keys :=
  (List.perm_ext_iff_of_nodup s.env.nodup_keys s.atoms.nodup_keys).2 fun key => by
    rw [SortedMap.mem_keys_iff, SortedMap.mem_keys_iff, h.listed]

theorem Tallied.environment_dump (h : s.Tallied) :
    s.dump.environment.entries.Perm (s.atoms.keys.map fun key => ((Operand.atom key).text, s.value key)) := by
  have hentries : (s.env.entries.map fun e => ((Operand.atom e.1).text, e.2)) =
      s.env.keys.map fun key => ((Operand.atom key).text, s.value key) := by
    rw [s.env.entries_eq_map .ptr, List.map_map]
    rfl
  have hnames : ((s.env.keys.map fun key => ((Operand.atom key).text, s.value key)).map Prod.fst).Nodup := by
    rw [List.map_map]
    exact s.env.nodup_keys.map fun _ _ => Operand.text_atom_inj
  unfold dump
  rw [hentries]
  exact (SortedMap.perm_ofList hnames).trans (h.perm_keys.map _)

/-! ### The whole dump -/

/-- **A dump loses nothing.**  In a store that any operations lead to, spelling a constraint out by
following the numbers of its parts ends, and gives a text exactly for the numbers that have been
given out; and different numbers have different texts, however deep the constraints nest.  The
lines of the dump are the constraints in force, one line each, in the order of their numbers,
with text and reason, and no two lines read alike.  The table of the dump has one entry for each
registered atom and no others: its name with its kind. -/
theorem dump_loses_nothing (hs : s.Reachable) :
    (∀ id depth, id < depth → s.readWithin .text depth id = s.text? id) ∧
    (∀ id, (∃ text, s.text? id = some text) ↔ id < s.arena.length) ∧
    (∀ id id' text, s.text? id = some text → s.text? id' = some text → id = id') ∧
    (∀ id, id ∈ s.active ↔ id ∈ s.topLevel ∧ id ∉ s.erased) ∧
    s.active.Pairwise (· < ·) ∧
    List.Forall₂ s.Shows s.active s.dump.constraints ∧
    (s.dump.constraints.map Prod.fst).Nodup ∧
    s.dump.environment.entries.Perm (s.atoms.keys.map fun key => ((Operand.atom key).text, s.value key)) :=
  ⟨fun _ _ hdepth => hs.readWithin_text hdepth, fun _ => exists_text?_iff, fun _ _ _ => hs.text?_inj,
    fun _ => mem_active.trans isActive_iff, s.pairwise_active, hs.filed.shows_dump, hs.nodup_texts_dump,
    hs.tallied.environment_dump⟩

/-! ### A concrete store -/

/-- A guard of a guard is in force next to the formula it negates; another constraint was taken out
while it was erased, and the name of one atom is the beginning of the name of another. -/
def layered : Store := performAll {} [
  .register 1, .createEq (.atom 10) (.kind .wild) { reason := "why" }, .createEq (.atom 1) (.kind .arr) {},
  .createImplies 0 1, .createNot 2, .createImplies 3 2, .add 4, .add 3, .add 0, .erase 0, .remove 0, .add 1, .solve]

/-- The nested constraints have their lines, and both atoms have their entries. -/
theorem layered_dump : layered.Reachable ∧ layered.active = [1, 3, 4] ∧
    layered.dump.constraints.map Prod.fst = ["q_1 == ARR", "~((q_10 == WILD) => (q_1 == ARR))",
      "(~((q_10 == WILD) => (q_1 == ARR))) => ((q_10 == WILD) => (q_1 == ARR))"] ∧
    layered.readWithin .text 5 4 = layered.text? 4 ∧ (layered.dump.constraints.map Prod.fst).Nodup ∧
    layered.dump.environment.entries.Perm [("q_1", .arr), ("q_10", .ptr)] := by
  have hreachable : layered.Reachable := reachable_performAll _
  obtain ⟨hdisplay, -, -, -, -, -, hnodup, htable⟩ := dump_loses_nothing hreachable
  exact ⟨hreachable, by decide, by decide, hdisplay 4 5 (by decide), hnodup, htable⟩

end Store

end PointerKinds
