/-
The chain of kinds, and what a filter leaves of it.

Whoever asks an atom to rise to a kind gets the greatest permitted kind up to it, or
nothing if there is none.  `Atom.floor?` says which kind that is without mentioning
where the atom stands, and `grant_eq` ties it to what a run really grants.  From then
on a filter is only ever met through `Store.Meets`: a demand on an atom is met if the
atom has at least the floor of the kind demanded.

Being met is kept when the atom rises and when the demand is lowered.  These two
facts carry every comparison of a run with a solution.
-/
import Mathlib.Order.Lattice
import PointerKinds.Solver.Run

namespace PointerKinds

namespace Kind

instance : LinearOrder Kind where
  le_refl a := Nat.le_refl a.rank
  le_trans _ _ _ := Nat.le_trans
  le_antisymm _ _ h₁ h₂ := rank_inj.1 (Nat.le_antisymm h₁ h₂)
  le_total a b := Nat.le_total a.rank b.rank
  lt_iff_le_not_ge _ _ := Nat.lt_iff_le_and_not_ge
  toDecidableEq := inferInstance
  toDecidableLE := inferInstance
  toDecidableLT := inferInstance
  compare_eq_compareOfLessAndEq a b := by cases a <;> cases b <;> rfl

theorem ptr_le (k : Kind) : ptr ≤ k := Nat.zero_le _

theorem le_wild (k : Kind) : k ≤ wild := rank_le_three k

theorem eq_wild_of_ntArr_lt {k : Kind} (h : ntArr < k) : k = wild := by
  cases k <;> first | rfl | exact absurd h (by decide)

theorem ntArr_le_of_arr_lt {k : Kind} (h : arr < k) : ntArr ≤ k := by
  cases k <;> first | decide | exact absurd h (by decide)

theorem le_arr_of_lt_ntArr {k : Kind} (h : k < ntArr) : k ≤ arr := by
  cases k <;> first | decide | exact absurd h (by decide)

theorem eq_ptr_of_lt_arr {k : Kind} (h : k < arr) : k = ptr := by
  cases k <;> first | rfl | exact absurd h (by decide)

/-- Going down the chain, the first kind that passes a test is the greatest that does. -/
theorem find?_descending {q : Kind → Bool} {g : Kind} :
    all.reverse.find? q = some g ↔ q g = true ∧ ∀ c, q c = true → c ≤ g := by
  have hall : all.reverse = [wild, ntArr, arr, ptr] := rfl
  have hbelow : (∀ c, q c = true → c ≤ g) ↔
      (q ptr = true → ptr ≤ g) ∧ (q arr = true → arr ≤ g) ∧ (q ntArr = true → ntArr ≤ g) ∧
        (q wild = true → wild ≤ g) :=
    ⟨fun h => ⟨h _, h _, h _, h _⟩, fun h c => by
      obtain ⟨h₀, h₁, h₂, h₃⟩ := h
      cases c <;> assumption⟩
  rw [hall, hbelow]
  cases hw : q wild <;> cases hn : q ntArr <;> cases ha : q arr <;> cases hp : q ptr <;>
    cases g <;> simp [*] <;> decide

end Kind

namespace Atom

/-- The greatest permitted kind that is not above another. -/
def floor? (a : Atom) (k : Kind) : Option Kind :=
  Kind.all.reverse.find? fun c => c ≤ k && a.permits c

variable {a : Atom}

theorem floor?_eq_some_iff {k g : Kind} :
    a.floor? k = some g ↔
      a.permits g = true ∧ g ≤ k ∧ ∀ c, a.permits c = true → c ≤ k → c ≤ g := by
  unfold floor?
  rw [Kind.find?_descending]
  simp only [Bool.and_eq_true, decide_eq_true_eq]
  exact ⟨fun h => ⟨h.1.2, h.1.1, fun c hc hle => h.2 c ⟨hle, hc⟩⟩,
    fun h => ⟨⟨h.2.1, h.1⟩, fun c hc => h.2.2 c hc.2 hc.1⟩⟩

theorem highestBelow_eq_some_iff {k g : Kind} :
    a.highestBelow k = some g ↔
      a.permits g = true ∧ g < k ∧ ∀ c, a.permits c = true → c < k → c ≤ g := by
  unfold highestBelow
  rw [Kind.find?_descending]
  simp only [Bool.and_eq_true, decide_eq_true_eq]
  exact ⟨fun h => ⟨h.1.2, h.1.1, fun c hc hlt => h.2 c ⟨hlt, hc⟩⟩,
    fun h => ⟨⟨h.2.1, h.1⟩, fun c hc => h.2.2 c hc.2 hc.1⟩⟩

theorem floor?_of_permits {k : Kind} (h : a.permits k = true) : a.floor? k = some k :=
  floor?_eq_some_iff.2 ⟨h, le_refl k, fun _ _ hle => hle⟩

theorem floor?_of_not_permits {k : Kind} (h : a.permits k = false) :
    a.floor? k = a.highestBelow k := by
  have hlt : ∀ c, a.permits c = true → (c ≤ k ↔ c < k) := fun c hc =>
    ⟨fun hle => lt_of_le_of_ne hle fun e => by rw [e, h] at hc; exact absurd hc (by decide),
      le_of_lt⟩
  refine Option.ext fun g => ?_
  rw [floor?_eq_some_iff, highestBelow_eq_some_iff]
  refine and_congr_right fun hg => ?_
  rw [hlt g hg]
  exact and_congr_right fun _ =>
    ⟨fun hmax c hc hck => hmax c hc (le_of_lt hck), fun hmax c hc hck => hmax c hc ((hlt c hc).1 hck)⟩

theorem floor?_le {k g : Kind} (h : a.floor? k = some g) : g ≤ k := (floor?_eq_some_iff.1 h).2.1

theorem permits_floor? {k g : Kind} (h : a.floor? k = some g) : a.permits g = true :=
  (floor?_eq_some_iff.1 h).1

/-- A lower demand has a lower floor. -/
theorem floor?_mono {k k' g : Kind} (h : a.floor? k = some g) (hle : k ≤ k') :
    ∃ g', a.floor? k' = some g' ∧ g ≤ g' := by
  obtain ⟨hp, hg, -⟩ := floor?_eq_some_iff.1 h
  cases h' : a.floor? k' with
  | some g' => exact ⟨g', rfl, (floor?_eq_some_iff.1 h').2.2 g hp (le_trans hg hle)⟩
  | none =>
      unfold floor? at h'
      have := List.find?_eq_none.1 h' g (by cases g <;> decide)
      simp only [Bool.and_eq_true, decide_eq_true_eq, not_and] at this
      exact absurd hp (this (le_trans hg hle))

/-- What a run grants is the floor of the request, if that is any higher than where the
atom stands. -/
theorem grant_eq {current k : Kind} (h : current < k) :
    a.grant current k = (a.floor? k).filter fun g => current < g := by
  unfold grant
  cases hp : a.permits k with
  | true => simp [floor?_of_permits hp, Option.filter, h]
  | false => simp [floor?_of_not_permits hp]

end Atom

namespace Store

/-- An environment meets the demand that an atom have a kind: the atom has at least the
floor of that kind. -/
def Meets (s : Store) (E : AtomKey → Kind) (key : AtomKey) (k : Kind) : Prop :=
  ∀ a, s.atoms.get? key = some a → ∀ g, a.floor? k = some g → g ≤ E key

variable {s : Store} {E F : AtomKey → Kind} {key : AtomKey} {k k' : Kind}

theorem meets_of_le (h : k ≤ E key) : s.Meets E key k :=
  fun _ _ _ hg => le_trans (Atom.floor?_le hg) h

theorem Meets.mono (h : s.Meets E key k) (hle : E key ≤ F key) : s.Meets F key k :=
  fun a ha g hg => le_trans (h a ha g hg) hle

theorem Meets.of_le (h : s.Meets E key k) (hle : k' ≤ k) : s.Meets E key k' := by
  intro a ha g hg
  obtain ⟨g', hg', hle'⟩ := Atom.floor?_mono hg hle
  exact le_trans hle' (h a ha g' hg')

theorem meets_ptr : s.Meets E key .ptr := meets_of_le (Kind.ptr_le _)

/-- Whether the filter of a registered atom lets a kind pass. -/
def Permits (s : Store) (key : AtomKey) (k : Kind) : Prop :=
  ∃ a, s.atoms.get? key = some a ∧ a.permits k = true

/-- A demand for a permitted kind is met in full. -/
theorem Meets.le (h : s.Meets E key k) (hp : s.Permits key k) : k ≤ E key := by
  obtain ⟨a, ha, hk⟩ := hp
  exact h a ha k (Atom.floor?_of_permits hk)

/-- The atoms of two stores are the same, and so are their filters. -/
def SameFilters (s t : Store) : Prop :=
  ∀ key, (t.atoms.get? key).map (·.forbidden) = (s.atoms.get? key).map (·.forbidden)

variable {t : Store}

theorem SameFilters.symm (h : s.SameFilters t) : t.SameFilters s := fun key => (h key).symm

theorem SameFilters.trans {u : Store} (h : s.SameFilters t) (h' : t.SameFilters u) : s.SameFilters u :=
  fun key => (h' key).trans (h key)

theorem Meets.congr (h : s.Meets E key k) (hst : s.SameFilters t) : t.Meets E key k := by
  intro a ha g hg
  have hkey := hst key
  rw [ha, Option.map_some] at hkey
  obtain ⟨b, hb, hforbidden⟩ := Option.map_eq_some_iff.1 hkey.symm
  refine h b hb g ?_
  rw [← hg]
  unfold Atom.floor? Atom.permits
  rw [hforbidden]

theorem Permits.congr (h : s.Permits key k) (hst : s.SameFilters t) : t.Permits key k := by
  obtain ⟨a, ha, hk⟩ := h
  have hkey := hst key
  rw [ha, Option.map_some] at hkey
  obtain ⟨b, hb, hforbidden⟩ := Option.map_eq_some_iff.1 hkey
  refine ⟨b, hb, ?_⟩
  unfold Atom.permits at hk ⊢
  rwa [hforbidden]

end Store

end PointerKinds
