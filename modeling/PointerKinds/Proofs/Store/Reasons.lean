/-
The reason under which a constraint is known.

A formula may be asked for many times, every time with an explanation, and is one constraint all
the same.  What is kept is the first reason that is not the default one, so the reason of a
constraint depends on the order in which it was asked for, and says nothing of the others.
-/
import PointerKinds.Proofs.Store.Built

namespace PointerKinds

namespace Explanation

variable {e why : Explanation} {whys : List Explanation}

/-- The reason that is kept of several: the first that is not the default one. -/
def keptReason (whys : List Explanation) : String :=
  ((whys.find? fun why => !why.isDefault).getD {}).reason

theorem isDefault_iff : e.isDefault = true ↔ e.reason = ({} : Explanation).reason := beq_iff_eq

theorem isDefault_congr (h : e.reason = why.reason) : e.isDefault = why.isDefault := by
  unfold isDefault
  rw [h]

theorem keptReason_concat_of_isDefault (h : why.isDefault = true) :
    keptReason (whys ++ [why]) = keptReason whys := by
  unfold keptReason
  rw [List.find?_append, List.find?_singleton, h]
  simp

/-- Being explained once more keeps the reason that is kept of all explanations. -/
theorem reason_orLater (h : e.reason = keptReason whys) :
    (e.orLater why).reason = keptReason (whys ++ [why]) := by
  unfold keptReason at h ⊢
  rw [List.find?_append]
  cases hfind : whys.find? fun why => !why.isDefault with
  | some w =>
      rw [hfind, Option.getD_some] at h
      have hown : w.isDefault = false := by simpa using List.find?_some hfind
      rw [← isDefault_congr h] at hown
      unfold orLater
      rw [hown]
      exact h
  | none =>
      rw [hfind] at h
      have hdefault : e.isDefault = true := isDefault_iff.2 h
      unfold orLater
      rw [hdefault, List.find?_singleton]
      cases why.isDefault with
      | true => exact h
      | false => rfl

/-- The first explanation of all is kept as it is. -/
theorem reason_eq_keptReason (h : keptReason whys = ({} : Explanation).reason) :
    why.reason = keptReason (whys ++ [why]) := by
  rw [← reason_orLater h.symm]
  unfold orLater
  cases hwhy : why.isDefault with
  | true => exact isDefault_iff.1 hwhy
  | false => rfl

end Explanation

namespace Store

open Explanation (keptReason)

variable {s t : Store} {f : Formula} {whys : List Explanation} {c c' d : Constraint} {id : ConstraintId}

theorem formula?_eq_of_constraint? (h : s.constraint? id = some c) : s.formula? id = some c.formula := by
  unfold formula?
  rw [h]
  rfl

/-- After a constraint is interned, every other constraint is what it was.  The one with its
formula was explained once more if there was one, and is the new one if not. -/
theorem Built.constraint?_intern (h : s.Built) (hc : (s.intern d).2.constraint? id = some c) :
    (s.constraint? id = some c ∧ c.formula ≠ d.formula) ∨
    (∃ c₀, s.constraint? id = some c₀ ∧ c₀.formula = d.formula ∧ c = c₀.explainedBy d) ∨
    ((∀ i, s.formula? i ≠ some d.formula) ∧ c = d) := by
  unfold intern at hc
  split at hc
  · rename_i i hfind
    obtain ⟨c₁, hget, hformula⟩ := Option.map_eq_some_iff.1 (find?_eq_some_iff.1 hfind).1
    unfold constraint? at hc
    rw [List.getElem?_modify] at hc
    obtain ⟨c₀, hc₀, he⟩ := Option.map_eq_some_iff.1 hc
    split at he
    · rename_i hid
      obtain rfl : c₁ = c₀ := Option.some.inj (hget.symm.trans (hid ▸ hc₀))
      exact .inr (.inl ⟨_, hid ▸ hget, hformula, he.symm⟩)
    · rename_i hid
      subst he
      refine .inl ⟨hc₀, fun hsame => hid ?_⟩
      refine h.formula?_inj ?_ (hsame ▸ formula?_eq_of_constraint? hc₀)
      rw [formula?_eq_of_constraint? hget, hformula]
  · rename_i hfind
    unfold constraint? at hc
    rw [List.getElem?_append] at hc
    split at hc
    · refine .inl ⟨hc, fun hsame => formula?_ne_of_find? hfind id ?_⟩
      rw [formula?_eq_of_constraint? hc, hsame]
    · rw [List.mem_singleton.1 (List.mem_of_getElem? hc)]
      exact .inr (.inr ⟨formula?_ne_of_find? hfind, rfl⟩)

/-- The constraint with a formula is known under the reason that is kept of some explanations. -/
structure Keeps (s : Store) (f : Formula) (whys : List Explanation) : Prop where
  reason : ∀ id c, s.constraint? id = some c → c.formula = f → c.why.reason = keptReason whys
  unknown : (∀ id, s.formula? id ≠ some f) → keptReason whys = ({} : Explanation).reason

theorem Keeps.of_arena_eq (h : s.Keeps f whys) (harena : t.arena = s.arena) : t.Keeps f whys := by
  constructor
  · unfold constraint?
    rw [harena]
    exact h.reason
  · unfold formula? constraint?
    rw [harena]
    exact h.unknown

theorem Keeps.intern (h : s.Keeps f whys) (hs : s.Built) (hd : d.formula = f) :
    (s.intern d).2.Keeps f (whys ++ [d.why]) where
  reason id c hc hf := by
    rcases hs.constraint?_intern hc with ⟨-, hne⟩ | ⟨c₀, hc₀, hf₀, rfl⟩ | ⟨hnone, rfl⟩
    · exact absurd (hf.trans hd.symm) hne
    · exact Explanation.reason_orLater (h.reason id c₀ hc₀ (hf₀.trans hd))
    · exact Explanation.reason_eq_keptReason (h.unknown (hd ▸ hnone))
  unknown hnone := absurd (hd ▸ formula?_intern_self s d) (hnone _)

theorem Keeps.intern_of_ne (h : s.Keeps f whys) (hs : s.Built) (hd : d.formula ≠ f) :
    (s.intern d).2.Keeps f whys where
  reason id c hc hf := by
    rcases hs.constraint?_intern hc with ⟨hc, -⟩ | ⟨c₀, -, hf₀, rfl⟩ | ⟨-, rfl⟩
    · exact h.reason id c hc hf
    · exact absurd (hf₀.symm.trans hf) hd
    · exact absurd hf hd
  unknown hnone := h.unknown fun id hf => hnone id ((formula?_intern s d (formula?_lt hf)).trans hf)

/-- What is interned for no reason changes no reason. -/
theorem Keeps.intern_of_isDefault (h : s.Keeps f whys) (hs : s.Built) (hd : d.why.isDefault = true) :
    (s.intern d).2.Keeps f whys := by
  by_cases hf : d.formula = f
  · have hkeeps := h.intern hs hf
    constructor
    · rw [← Explanation.keptReason_concat_of_isDefault hd]
      exact hkeeps.reason
    · rw [← Explanation.keptReason_concat_of_isDefault hd]
      exact hkeeps.unknown
  · exact h.intern_of_ne hs hf

theorem Keeps.addFlow (h : s.Keeps f whys) (hs : s.Built) (a b : AtomKey) (k : Kind) :
    (s.addFlow a b k).Keeps f whys := by
  have hbuilt₁ : (s.intern { formula := .equal (.atom a) (.kind k) }).2.Built := hs.createEq _ _ _
  have h₁ := h.intern_of_isDefault hs (d := { formula := .equal (.atom a) (.kind k) }) rfl
  have hbuilt₂ := hbuilt₁.createEq (.atom b) (.kind k) {}
  have h₂ := h₁.intern_of_isDefault hbuilt₁ (d := { formula := .equal (.atom b) (.kind k) }) rfl
  have h₃ := h₂.intern_of_isDefault hbuilt₂
    (d := { formula := .implies (.equal (.atom a) (.kind k)) (.equal (.atom b) (.kind k)) }) rfl
  exact h₃.of_arena_eq (arena_add _ _)

end Store

end PointerKinds
