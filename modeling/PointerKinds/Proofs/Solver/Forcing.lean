/-
What is erased to make an atom checked again.

A constraint in force holds an atom unchecked if it hands the unchecked kind to it now: a pin
of the atom does, a flow into it from an unchecked atom does, and so does an equality with
another unchecked atom, unless that one remembers the same equality.  The exception keeps an
equality that the other atom has its kind through.  The constraint remembered for the atom
itself is never excepted: each of the two would have its kind from the other.
-/
import PointerKinds.Proofs.RootCauses.Origins

namespace PointerKinds

namespace Store

variable {s : Store} {key x y a b : AtomKey} {k : Kind} {id top : ConstraintId} {f : Formula}

theorem Indexed.mem_wildForcing (h : s.Indexed) :
    id ∈ s.wildForcing key ↔
      ∃ f, (id, f) ∈ s.activeFormulas ∧ key ∈ f.mentions ∧ s.forcesWild id key f = true := by
  unfold wildForcing
  rw [List.mem_map]
  constructor
  · rintro ⟨c, hc, rfl⟩
    obtain ⟨hat, hforces⟩ := List.mem_filter.1 hc
    obtain ⟨hact, hk⟩ := h.mem_formulasAt_iff.1 hat
    exact ⟨c.2, hact, hk, hforces⟩
  · rintro ⟨f, hf, hk, hforces⟩
    exact ⟨(id, f), List.mem_filter.2 ⟨h.mem_formulasAt_iff.2 ⟨hf, hk⟩, hforces⟩, rfl⟩

/-- A constraint has one formula. -/
theorem Indexed.mem_wildForcing_iff (h : s.Indexed) (hf : (id, f) ∈ s.activeFormulas) :
    id ∈ s.wildForcing key ↔ key ∈ f.mentions ∧ s.forcesWild id key f = true := by
  rw [h.mem_wildForcing]
  constructor
  · rintro ⟨g, hg, hforces⟩
    have hformula := (mem_activeFormulas.1 hg).2
    rw [(mem_activeFormulas.1 hf).2] at hformula
    rwa [Option.some.inj hformula]
  · exact fun hforces => ⟨f, hf, hforces⟩

theorem Indexed.of_mem_wildForcing (h : s.Indexed) (hid : id ∈ s.wildForcing key) :
    s.isActive id = true ∧ s.Mentions id key := by
  obtain ⟨f, hf, hk, -⟩ := h.mem_wildForcing.1 hid
  obtain ⟨hactive, hformula⟩ := mem_activeFormulas.1 hf
  exact ⟨hactive, f, hformula, hk⟩

/-! ### The three shapes -/

theorem forcesWild_pin : s.forcesWild top key (.pin x .wild) = true ↔ x = key := by
  unfold forcesWild
  by_cases hx : x = key
  · subst hx
    simp [handsOnWild]
  · simp [hx]

theorem forcesWild_join : s.forcesWild top key (.join a b) = true ↔
    (a = key ∧ s.handsOnWild top (.atom b) = true) ∨ (a ≠ key ∧ b = key ∧ s.handsOnWild top (.atom a) = true) := by
  unfold forcesWild
  by_cases ha : a = key
  · simp [ha]
  · by_cases hb : b = key <;> simp [ha, hb]

theorem forcesWild_flow : s.forcesWild top key (.flow a b .wild) = true ↔ s.value a = .wild ∧ b = key := by
  unfold forcesWild
  rw [Bool.and_eq_true, decide_eq_true_eq, Formula.truth_atomKind_eq_yes, forcesWild_pin]

theorem handsOnWild_atom : s.handsOnWild top (.atom y) = true ↔ s.value y = .wild ∧ s.forcedBy.get? y ≠ some top := by
  unfold handsOnWild
  rw [Bool.and_eq_true, decide_eq_true_eq, decide_eq_true_eq]

/-! ### The constraint remembered -/

/-- The other side of the equality that is remembered for an atom hands the unchecked kind on. -/
theorem Steady.handsOnWild (h : s.Steady) (hx : s.forcedBy.get? x = some id) (hf : s.formula? id = some f)
    (hshape : f = .join x y ∨ f = .join y x) (hy : s.value y = .wild) : s.handsOnWild id (.atom y) = true := by
  refine handsOnWild_atom.2 ⟨hy, fun he => ?_⟩
  have htakes : s.TakesFrom x y ∧ s.TakesFrom y x := by
    rcases hshape with rfl | rfl
    · exact ⟨⟨id, _, hx, hf, .join⟩, ⟨id, _, he, hf, .joinBack⟩⟩
    · exact ⟨⟨id, _, hx, hf, .joinBack⟩, ⟨id, _, he, hf, .join⟩⟩
  exact h.wellFounded_takesFrom.asymmetric x y htakes.2 htakes.1

theorem Steady.value_of_justified (h : s.Steady) (hx : s.Justified s.forcedBy x) : s.value x = .wild := by
  obtain ⟨id, hid⟩ := hx.caused
  exact h.explained.wild x id hid

/-- The constraint remembered for an unchecked atom holds it unchecked. -/
theorem Steady.exists_mem_wildForcing (h : s.Steady) (hkey : s.value key = .wild) :
    ∃ id, s.forcedBy.get? key = some id ∧ id ∈ s.wildForcing key := by
  cases h.explained.justified key hkey with
  | @pin _ id hx hf hp =>
      refine ⟨id, hx, (h.indexed.mem_wildForcing_iff hf).2 ⟨?_, forcesWild_pin.2 rfl⟩⟩
      simp [Formula.mentions, Operand.key?]
  | @join _ y id hx hf hp hy =>
      have hhands := h.handsOnWild hx (mem_activeFormulas.1 hf).2 (.inl rfl) (h.value_of_justified hy)
      refine ⟨id, hx, (h.indexed.mem_wildForcing_iff hf).2 ⟨?_, forcesWild_join.2 (.inl ⟨rfl, hhands⟩)⟩⟩
      simp [Formula.mentions, Operand.key?]
  | @joinBack _ y id hx hf hp hy =>
      have hhands := h.handsOnWild hx (mem_activeFormulas.1 hf).2 (.inr rfl) (h.value_of_justified hy)
      refine ⟨id, hx, (h.indexed.mem_wildForcing_iff hf).2 ⟨?_, forcesWild_join.2 ?_⟩⟩
      · simp [Formula.mentions, Operand.key?]
      · by_cases hyk : y = key
        · exact .inl ⟨hyk, hyk ▸ hhands⟩
        · exact .inr ⟨hyk, rfl, hhands⟩
  | @flow _ y id hx hf hp hy =>
      refine ⟨id, hx, (h.indexed.mem_wildForcing_iff hf).2
        ⟨?_, forcesWild_flow.2 ⟨h.value_of_justified hy, rfl⟩⟩⟩
      simp [Formula.mentions, Operand.key?]

end Store

end PointerKinds
