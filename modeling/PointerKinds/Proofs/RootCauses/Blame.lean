/-
What the root of a group is blamed for.

The constraint remembered for an unchecked atom tells where the kind is from: from the
constraint itself, or from another atom.  In all cases but one that atom was unchecked before,
so going from source to source ends, at an atom that was made unchecked for a reason of its own.

The exception is an implication whose premise equates two atoms.  It is passed as soon as the two
agree, which they may do while both are checked.  Its source is read off in the end, when both
may be unchecked, and then the lesser of them is taken for it, although it may owe its kind to the
very atom it is taken to explain.  So the sources of a whole group can go round in a ring, with
nobody to blame, and the group gets the default reason.

It is shown that there is no other way to a root without a reason, where every demand to be
unchecked comes with one and implications stand between equalities.
-/
import PointerKinds.Proofs.RootCauses.Origins
import PointerKinds.Proofs.Solver.Foundation
import PointerKinds.Proofs.Solver.Replay
import PointerKinds.Proofs.Store.Operations
import PointerKinds.Proofs.Store.Reasons

namespace PointerKinds

theorem Explanation.isDefault_orLater {e later : Explanation} (h : later.isDefault = false) :
    (e.orLater later).isDefault = false := by
  unfold orLater
  rw [h]
  cases he : e.isDefault with
  | true => exact h
  | false => exact he

namespace Formula

variable {E : AtomKey → Kind} {rank : AtomKey → Nat} {x : AtomKey} {f : Formula}

/-- Implications stand between equalities. -/
def isLevel : Formula → Bool
  | implies (eq ..) (eq ..) => true
  | implies .. => false
  | _ => true

/-- A level formula is its own core, or an implication between an equality and its core. -/
theorem core_of_isLevel (h : f.isLevel = true) : f.core = f ∨ ∃ a b, f = implies (eq a b) f.core := by
  unfold isLevel at h
  split at h
  · exact .inr ⟨_, _, rfl⟩
  · exact nomatch h
  · rename_i hne
    cases f with
    | eq | not => exact .inl rfl
    | implies p c => exact absurd rfl (hne p c)

theorem otherAtom?_pin (x : AtomKey) : (pin x .wild).otherAtom? x = none := by
  simp [otherAtom?, otherSide?, Operand.key?]

/-- What makes an atom unchecked asks for it outright, or sets the atom against one that was
unchecked before. -/
theorem Grounds.eq_pin_or_otherAtom? (h : f.Grounds E rank x) : f = Formula.pin x .wild ∨
    ∃ y, f.otherAtom? x = some y ∧ E y = .wild ∧ rank y < rank x := by
  cases h with
  | pin => exact .inl rfl
  | @join y hy hlt => exact .inr ⟨y, by simp [otherAtom?, otherSide?, Operand.key?], hy, hlt⟩
  | @joinBack y hy hlt =>
      refine .inr ⟨y, ?_, hy, hlt⟩
      by_cases hyx : y = x <;> simp [otherAtom?, otherSide?, Operand.key?, hyx]

/-- A true equality with an unchecked atom in it asks for that, or has unchecked atoms on both sides. -/
theorem eq_pin_or_join {l r : Operand} (hnormal : (eq l r).IsNormal) (htrue : (eq l r).truth E = .yes)
    {y : AtomKey} (hy : y ∈ (eq l r).mentions) (hwild : E y = .wild) :
    eq l r = pin y .wild ∨ ∃ a b, eq l r = join a b ∧ E a = .wild ∧ E b = .wild := by
  cases l with
  | kind k =>
      cases r with
      | kind l => exact absurd hy List.not_mem_nil
      | atom b => exact hnormal.elim
  | atom a =>
      cases r with
      | kind k =>
          obtain rfl : y = a := by simpa [mentions, Operand.key?] using hy
          rw [truth_atomKind_eq_yes.1 htrue] at hwild
          exact .inl (by rw [hwild])
      | atom b =>
          have hsame : E a = E b := by
            simp only [truth, equalityTruth] at htrue
            split at htrue
            · assumption
            · cases htrue
          refine .inr ⟨a, b, rfl, ?_⟩
          have hmem : y = a ∨ y = b := by simpa [mentions, Operand.key?] using hy
          rcases hmem with rfl | rfl
          · exact ⟨hwild, hsame ▸ hwild⟩
          · exact ⟨hsame ▸ hwild, hwild⟩

end Formula

namespace Store

variable {s : Store} {id : ConstraintId} {c : Constraint} {f : Formula} {rank : AtomKey → Nat} {x : AtomKey}

/-! ### Sources -/

/-- Every demand to be unchecked comes with a reason, and implications stand between equalities. -/
structure Accountable (s : Store) : Prop where
  level : ∀ c ∈ s.arena, c.formula.isLevel = true
  why : ∀ c ∈ s.arena, ∀ x, c.formula = .pin x .wild → c.why.isDefault = false

/-- The explanation of the constraint remembered for an atom, or of what that concludes. -/
def ReasonFor (s : Store) (x : AtomKey) (why : Explanation) : Prop :=
  ∃ id c, s.forcedBy.get? x = some id ∧ s.constraint? id = some c ∧
    (why = c.why ∨ ∃ p i d, c.formula = .implies p d.formula ∧ s.constraint? i = some d ∧ why = d.why)

/-- The constraint remembered for an atom was passed because two atoms agreed, and both are unchecked. -/
def PassedByPair (s : Store) (x : AtomKey) : Prop :=
  ∃ id a b, s.forcedBy.get? x = some id ∧ s.formula? id = some (.implies (.join a b) (.pin x .wild)) ∧
    s.value a = .wild ∧ s.value b = .wild

/-- An atom is unchecked for a reason of its own, or because of another that was unchecked before,
or because of one of two atoms that agreed. -/
inductive Sourced (s : Store) (rank : AtomKey → Nat) (x : AtomKey) : Prop
  | direct {why : Explanation} (hsource : s.wildSource x = .direct why) (hreason : s.ReasonFor x why)
      (hown : why.isDefault = false) : Sourced s rank x
  | atom {y : AtomKey} (hsource : s.wildSource x = .atom y) (hy : s.value y = .wild)
      (hlt : rank y < rank x ∨ s.PassedByPair x) : Sourced s rank x

/-- The constraint with a formula is found by it. -/
theorem exists_constraintFor? (h : s.Knows f) :
    ∃ i d, s.constraintFor? f = some d ∧ s.constraint? i = some d ∧ d.formula = f := by
  obtain ⟨id, hid⟩ := h
  unfold constraintFor?
  cases hfind : s.find? f with
  | none => exact absurd hid (formula?_ne_of_find? hfind id)
  | some i =>
      obtain ⟨d, hd, hformula⟩ := Option.map_eq_some_iff.1 (find?_eq_some_iff.1 hfind).1
      exact ⟨i, d, hd, hd, hformula⟩

theorem Accountable.isDefault (h : s.Accountable) (hc : s.constraint? id = some c) (hpin : c.formula = .pin x .wild) :
    c.why.isDefault = false := h.why c (List.mem_of_getElem? hc) x hpin

theorem wildSource_of_caused (hid : s.forcedBy.get? x = some id) (hc : s.constraint? id = some c) :
    s.wildSource x = s.sourceIn c x := by
  unfold Store.wildSource
  rw [hid, Option.bind_some, hc]

/-- The atom that is set against another is its source. -/
theorem sourceIn_of_otherAtom? {y : AtomKey} (hlevel : c.formula.isLevel = true)
    (h : c.formula.core.otherAtom? x = some y) : s.sourceIn c x = .atom y := by
  unfold sourceIn
  rcases Formula.core_of_isLevel hlevel with he | ⟨a, b, he⟩
  · rw [he] at h
    cases hf : c.formula with
    | eq l r =>
        rw [hf] at h
        simp only [h]
    | not body => exact nomatch hf ▸ h
    | implies p g => exact nomatch hf ▸ h
  · rw [he]
    simp only [h]

/-- The source of an atom that an implication makes unchecked outright. -/
theorem Accountable.sourced_implies {l r : Operand} (h : s.Accountable) (hid : s.forcedBy.get? x = some id)
    (hc : s.constraint? id = some c) (hf : c.formula = .implies (.eq l r) (.pin x .wild))
    (hnormal : (Formula.eq l r).IsNormal) (hknows : s.Knows (.pin x .wild))
    (htrue : (Formula.eq l r).truth s.value = .yes)
    (hpremise : ∀ y, .eq l r = Formula.pin y .wild → rank y < rank x) : s.Sourced rank x := by
  have hsource := wildSource_of_caused hid hc
  unfold sourceIn at hsource
  simp only [hf, Formula.otherAtom?_pin] at hsource
  cases hfind : (Formula.eq l r).atoms.toList.find? fun k => s.value k = .wild with
  | some y =>
      rw [hfind] at hsource
      have hy : s.value y = .wild := by simpa using List.find?_some hfind
      have hmem : y ∈ (Formula.eq l r).mentions := Formula.mem_atoms.1 (List.mem_of_find?_eq_some hfind)
      refine .atom hsource hy ?_
      rcases Formula.eq_pin_or_join hnormal htrue hmem hy with hp | ⟨a, b, hp, ha, hb⟩
      · exact .inl (hpremise y hp)
      · refine .inr ⟨id, a, b, hid, ?_, ha, hb⟩
        rw [formula?_eq_of_constraint? hc, hf, hp]
  | none =>
      obtain ⟨i, d, hd, hi, hpin⟩ := exists_constraintFor? hknows
      rw [hfind, hd] at hsource
      refine .direct hsource ⟨id, c, hid, hc, ?_⟩ (Explanation.isDefault_orLater (h.isDefault hi hpin))
      unfold Explanation.orLater
      split
      · exact .inr ⟨_, i, d, hpin ▸ hf, hi, rfl⟩
      · exact .inl rfl

/-- The source of an atom that a constraint makes unchecked. -/
theorem Accountable.sourced (h : s.Accountable) (hid : s.forcedBy.get? x = some id) (hf : s.formula? id = some f)
    (hparts : ∀ p g, f = .implies p g → p.IsNormal ∧ s.Knows g) (hground : f.core.Grounds s.value rank x)
    (htrue : ∀ p ∈ f.premises, p.truth s.value = .yes)
    (hpremise : ∀ y, .pin y .wild ∈ f.premises → rank y < rank x) : s.Sourced rank x := by
  obtain ⟨c, hc, rfl⟩ := Option.map_eq_some_iff.1 hf
  have hlevel := h.level c (List.mem_of_getElem? hc)
  have hsource := wildSource_of_caused hid hc
  rcases hground.eq_pin_or_otherAtom? with hpin | ⟨y, hother, hy, hlt⟩
  · rcases Formula.core_of_isLevel hlevel with he | ⟨l, r, he⟩
    · rw [hpin] at he
      unfold sourceIn at hsource
      simp only [← he, Formula.otherAtom?_pin] at hsource
      exact .direct hsource ⟨id, c, hid, hc, .inl rfl⟩ (h.isDefault hc he.symm)
    · rw [hpin] at he
      obtain ⟨hnormal, hknows⟩ := hparts _ _ he
      rw [he] at htrue hpremise
      exact h.sourced_implies hid hc he hnormal hknows (htrue _ List.mem_cons_self)
        fun y hp => hpremise y (hp ▸ List.mem_cons_self)
  · exact .atom (hsource.trans (sourceIn_of_otherAtom? hlevel hother)) hy (.inl hlt)

/-- A round never leaves what is founded. -/
theorem kept_foundedIn (s : Store) :
    Run.Kept s (fun id f => s.formula? id = some f ∧ f.core.IsNormal)
      (Run.FoundedIn fun id f => s.formula? id = some f) where
  visit _ h := h.visit
  raise _ _ _ _ _ hf hask h := h.raise hf.1 hf.2 hask
  commit _ f h := h.commit f

/-- Solving from checked pointers leaves every unchecked atom with a source. -/
theorem Reachable.sourced (hs : s.Reachable) (h : s.Accountable) :
    ∃ rank, ∀ x, s.reset.solve.2.value x = .wild → s.reset.solve.2.Sourced rank x := by
  have hrun := solution_eq_round s.reset s.reset.atoms.keys
  have hstale := (accepts_solution s.reset s.reset.atoms.keys).blocked_inForce.1
  have hfounded := Run.round_kept (kept_foundedIn s.reset) (fun id f hf => ⟨hf, hs.isNormal_core hf⟩)
    (fun _ hr => hr.promote) s.reset.atoms.keys (s.reset.solution s.reset.atoms.keys).blocked
    (Run.founded_start_reset s)
  rw [← hrun] at hfounded
  obtain ⟨rank, -, -, hrank⟩ := hfounded.ranked
  have haccountable : s.reset.solve.2.Accountable := ⟨h.level, h.why⟩
  refine ⟨rank, fun x hx => ?_⟩
  obtain ⟨id, hid⟩ := (hfounded.caused x).2 hx
  obtain ⟨f, hf, hdescends⟩ := hrank x id hid
  refine haccountable.sourced hid hf (fun p g he => ?_) hdescends.grounds (hdescends.passes.truth hstale)
    fun y hy => (hdescends.premise y hy).2
  obtain ⟨⟨i, hi⟩, hknows⟩ := hs.knows_parts ⟨id, he ▸ hf⟩
  exact ⟨hs.isNormal hi, hknows⟩

/-! ### Roots -/

/-- Every member of a group has an atom for its source, and one became unchecked because two agreed. -/
structure Ring (s : Store) (root : AtomKey) : Prop where
  atom : ∀ x, (RootCauses.ofStore s).Same root x → ∃ y, s.wildSource x = .atom y
  pair : ∃ x, (RootCauses.ofStore s).Same root x ∧ s.PassedByPair x

variable {root : AtomKey} {why : Explanation}

theorem value_of_same (h : (RootCauses.ofStore s).Same root x) : s.value x = .wild := by
  obtain ⟨l, -, hl⟩ := h
  exact mem_wildAtoms.1 ((RootCauses.contains_ofStore s x).1 (RootCauses.contains_iff.2 ⟨l, hl⟩))

/-- In a group of atoms that all have another for their source, going from source to source comes
to a pair: the numbers cannot descend forever. -/
theorem exists_passedByPair (hsourced : ∀ x, s.value x = .wild → s.Sourced rank x)
    (hatom : ∀ x, (RootCauses.ofStore s).Same root x → ∃ y, s.wildSource x = .atom y)
    (hx : (RootCauses.ofStore s).Same root x) : ∃ y, (RootCauses.ofStore s).Same root y ∧ s.PassedByPair y := by
  induction hn : rank x using Nat.strong_induction_on generalizing x with
  | _ n ih =>
      have hwild := value_of_same hx
      cases hsourced x hwild with
      | direct hsource =>
          obtain ⟨y, hy⟩ := hatom x hx
          cases hsource.symm.trans hy
      | @atom y hsource hy hlt =>
          rcases hlt with hlt | hpair
          · have hsame := RootCauses.same_ofStore (mem_wildAtoms.2 hwild) (mem_wildAtoms.2 hy) hsource
            exact ih (rank y) (hn ▸ hlt) (hx.trans hsame) rfl
          · exact ⟨x, hx, hpair⟩

/-- Before the groups are completed, exactly the atoms with a reason of their own are blamed. -/
theorem direct_traced_of_sourced (hsourced : ∀ x, s.value x = .wild → s.Sourced rank x) (hx : s.value x = .wild) :
    s.traced.direct.get? x = RootCauses.ownReason s x := by
  rw [get?_direct_traced_of_sources, if_pos (mem_wildAtoms.2 hx)]
  intro key hkey other hsource
  cases hsourced key (mem_wildAtoms.1 hkey) with
  | direct hdirect => exact nomatch hdirect.symm.trans hsource
  | atom hatom hy => exact mem_wildAtoms.2 (WildSource.atom.inj (hatom.symm.trans hsource) ▸ hy)

/-- Where nobody in a group is blamed before completion, every source is another atom. -/
theorem source_of_orphan (hsourced : ∀ x, s.value x = .wild → s.Sourced rank x)
    (hlabel : s.traced.label.get? root = some root) (horphan : s.traced.rootOf? root = none)
    (hx : (RootCauses.ofStore s).Same root x) : ∃ y, s.wildSource x = .atom y := by
  have hwild := value_of_same hx
  cases hsourced x hwild with
  | atom hsource => exact ⟨_, hsource⟩
  | direct hsource =>
      obtain ⟨m, hm, hxm⟩ := hx
      unfold RootCauses.ofStore at hm hxm
      rw [RootCauses.label_complete] at hm hxm
      obtain rfl := Option.some.inj (hlabel.symm.trans hm)
      have hno := RootCauses.rootOf?_eq_none.1 horphan x hxm
      unfold SortedMap.contains at hno
      rw [direct_traced_of_sourced hsourced hwild] at hno
      simp [RootCauses.ownReason, hsource] at hno

/-- A root has the reason of its constraint, or its group is a ring and nobody has a reason. -/
theorem blame_of_sourced (hsourced : ∀ x, s.value x = .wild → s.Sourced rank x)
    (hroot : (root, why) ∈ (RootCauses.ofStore s).roots) :
    s.Ring root ∧ why = {} ∨ ¬ s.Ring root ∧ s.ReasonFor root why ∧ why.isDefault = false := by
  obtain ⟨hdirect, hisRoot⟩ := RootCauses.mem_roots.1 hroot
  obtain ⟨l, hl, -⟩ := RootCauses.isRoot_iff.1 hisRoot
  have hsame : (RootCauses.ofStore s).Same root root := ⟨l, hl, hl⟩
  have hcomplete : (RootCauses.ofStore s).direct.get? root = _ := RootCauses.get?_direct_complete s.traced root
  rw [hdirect] at hcomplete
  split at hcomplete
  · rename_i horphan
    have hatom := fun x hx => source_of_orphan (x := x) hsourced horphan.1 horphan.2 hx
    exact .inl ⟨⟨hatom, exists_passedByPair hsourced hatom hsame⟩, Option.some.inj hcomplete⟩
  · have hwild := value_of_same hsame
    rw [direct_traced_of_sourced hsourced hwild] at hcomplete
    cases hsourced root hwild with
    | atom hsource => simp [RootCauses.ownReason, hsource] at hcomplete
    | direct hsource hreason hdefault =>
        obtain rfl : why = _ := by simpa [RootCauses.ownReason, hsource] using hcomplete
        refine .inr ⟨fun hring => ?_, hreason, hdefault⟩
        obtain ⟨y, hy⟩ := hring.atom root hsame
        cases hsource.symm.trans hy

/-- A ring takes a premise that equates two atoms. -/
theorem Reachable.reasonFor_root (hs : s.Reachable) (h : s.Accountable)
    (hpremises : ∀ c ∈ s.arena, ∀ a b g, c.formula ≠ .implies (.join a b) g)
    (hroot : (root, why) ∈ (RootCauses.ofStore s.reset.solve.2).roots) :
    s.reset.solve.2.ReasonFor root why ∧ why.isDefault = false := by
  obtain ⟨rank, hsourced⟩ := hs.sourced h
  rcases blame_of_sourced hsourced hroot with ⟨⟨-, x, -, id, a, b, -, hf, -⟩, -⟩ | ⟨-, hreason⟩
  · obtain ⟨c, hc, he⟩ := Option.map_eq_some_iff.1 hf
    exact absurd he (hpremises c (List.mem_of_getElem? hc) a b _)
  · exact hreason

/-- **What a root is blamed for.**  After solving from checked pointers, the group of every unchecked
atom has a root.  A root has the reason of the constraint remembered for it, or of what that
concludes, and not the default one, unless its group is a ring; and then it has the default one.
Where no premise equates two atoms, there are no rings. -/
theorem Reachable.blame (hs : s.Reachable) (h : s.Accountable) :
    let t := s.reset.solve.2
    let causes := RootCauses.ofStore t
    (∀ x, t.value x = .wild → ∃ root why, causes.find x = some root ∧ (root, why) ∈ causes.roots) ∧
    (∀ root why, (root, why) ∈ causes.roots →
      t.Ring root ∧ why = {} ∨ ¬ t.Ring root ∧ t.ReasonFor root why ∧ why.isDefault = false) ∧
    ((∀ c ∈ s.arena, ∀ a b g, c.formula ≠ .implies (.join a b) g) → ∀ root why, (root, why) ∈ causes.roots →
      t.ReasonFor root why ∧ why.isDefault = false) := by
  obtain ⟨rank, hsourced⟩ := hs.sourced h
  exact ⟨fun x hx => RootCauses.find_mem_roots (mem_wildAtoms.2 hx), fun root why hroot =>
    blame_of_sourced hsourced hroot, fun hpremises root why hroot => hs.reasonFor_root h hpremises hroot⟩

/-! ### Two concrete stores -/

/-- Two atoms agree from the start.  For that the first becomes unchecked, and because of it the second. -/
def ring : Store := performAll {} [.createEq (.atom 0) (.atom 1) {},
  .createEq (.atom 0) (.kind .wild) { reason := "why" }, .createEq (.atom 1) (.kind .wild) { reason := "why" },
  .createImplies 0 1, .createImplies 1 2, .add 3, .add 4]

/-- The same two atoms, of which the first is unchecked outright. -/
def chain : Store := performAll ring [.add 1, .remove 3]

theorem ring_accountable : ring.Accountable := by
  have harena : ring.arena = [{ formula := .join 0 1 }, { formula := .pin 0 .wild, why := { reason := "why" } },
      { formula := .pin 1 .wild, why := { reason := "why" } }, { formula := .implies (.join 0 1) (.pin 0 .wild) },
      { formula := .flow 0 1 .wild }] := by decide
  constructor <;> simp [harena, Formula.isLevel, Explanation.isDefault]

theorem chain_accountable : chain.Accountable := ⟨ring_accountable.level, ring_accountable.why⟩

/-- Without the ring, the root has the reason it is unchecked for. -/
theorem chain_blame : chain.Reachable ∧ chain.Accountable ∧
    (0, { reason := "why" }) ∈ (RootCauses.ofStore chain.reset.solve.2).roots ∧
    ¬ chain.reset.solve.2.Ring 0 ∧ chain.reset.solve.2.ReasonFor 0 { reason := "why" } := by
  have hreachable : chain.Reachable := (reachable_performAll _).performAll _
  have hroot : (0, { reason := "why" }) ∈ (RootCauses.ofStore chain.reset.solve.2).roots := by decide
  refine ⟨hreachable, chain_accountable, hroot, ?_⟩
  rcases (hreachable.blame chain_accountable).2.1 0 _ hroot with ⟨-, he⟩ | ⟨hring, hreason, -⟩
  · exact nomatch he
  · exact ⟨hring, hreason⟩

/-- Both demands have a reason, and the root has none: the source of the first atom is taken to be the
first atom. -/
theorem ring_blame : ring.Reachable ∧ ring.Accountable ∧
    (0, {}) ∈ (RootCauses.ofStore ring.reset.solve.2).roots ∧ Explanation.isDefault {} = true ∧
    ring.reset.solve.2.forcedBy.get? 0 = some 3 ∧ ring.formula? 3 = some (.implies (.join 0 1) (.pin 0 .wild)) ∧
    ring.constraint? 1 = some { formula := .pin 0 .wild, why := { reason := "why" } } ∧
    ring.reset.solve.2.wildSource 0 = .atom 0 := by
  refine ⟨reachable_performAll _, ring_accountable, ?_, ?_, ?_, ?_, ?_, ?_⟩ <;> decide

end Store

end PointerKinds
