/-
Demands are about the atoms of the variables they relate.

Relating variables never brings an atom into being.  Every list of demands mentions atoms of
its variables only, by the recursion of the relation that imposes it; and a demand on atoms
that are registered registers none.  So the atoms of a store are those that declarations gave
out, one after the other from the first key on, whatever was related in between.
-/
import PointerKinds.Proofs.Session.Demands
import PointerKinds.Proofs.Store.Tally

namespace PointerKinds

namespace Variable

theorem outer?_subset (o : Object) : o.outer?.toList ⊆ o.atoms := by
  intro key hkey
  exact List.mem_of_mem_head? (Option.mem_toList.1 hkey)

mutual

/-- The outermost atoms are among all atoms. -/
theorem outerAtoms_subset : ∀ v : Variable, v.outerAtoms ⊆ v.atoms
  | .object o => by
      simp only [outerAtoms, atoms]
      exact outer?_subset o
  | .code o target => by
      simp only [outerAtoms, atoms]
      exact List.subset_append_of_subset_left _ (outer?_subset o)
  | .function head ret params => by
      simp only [outerAtoms, atoms]
      exact List.append_subset.2 ⟨List.subset_append_of_subset_left _ (outerAtoms_subset ret),
        List.subset_append_of_subset_right _ (outerAtomsOfAll_subset params)⟩

theorem outerAtomsOfAll_subset : ∀ vs : List Variable, outerAtomsOfAll vs ⊆ atomsOfAll vs
  | [] => by
      simp only [outerAtomsOfAll, atomsOfAll]
      exact List.Subset.refl []
  | v :: vs => by
      simp only [outerAtomsOfAll, atomsOfAll]
      exact List.append_subset.2 ⟨List.subset_append_of_subset_left _ (outerAtoms_subset v),
        List.subset_append_of_subset_right _ (outerAtomsOfAll_subset vs)⟩

end

theorem mem_atomsOfAll {vs : List Variable} {key : AtomKey} : key ∈ atomsOfAll vs ↔ ∃ v ∈ vs, key ∈ v.atoms := by
  induction vs with
  | nil => simp [atomsOfAll]
  | cons v vs ih => simp only [atomsOfAll, List.mem_append, ih, List.exists_mem_cons_iff]

/-- The atoms of a function include those of its parameters. -/
theorem mem_atoms_of_mem_params {f v : Variable} {key : AtomKey} (hv : v ∈ f.params) (hkey : key ∈ v.atoms) :
    key ∈ f.atoms := by
  cases f with
  | object | code => exact absurd hv List.not_mem_nil
  | function head ret params =>
      rw [atoms, List.mem_append]
      exact .inr (mem_atomsOfAll.2 ⟨v, hv, hkey⟩)

end Variable

namespace Demand

open Store (Direction)

variable {K : AtomKey → Prop} {L : Location → Prop} {l l' : List Demand} {why : Explanation} {v w : Variable}
  {a b : Object} {vs ws : List Variable} {location : Location} {handleVarargs variadic : Bool}

/-- The atoms that a demand is about. -/
def atoms : Demand → List AtomKey
  | pin key _ _ => [key]
  | join a b => [a, b]
  | flow source target => [source, target]

/-- The place that the reason of a demand names. -/
def location? : Demand → Option Location
  | pin _ _ why => why.location
  | join .. | flow .. => none

/-- Demands that are about certain atoms only, and name certain places only. -/
def Within (K : AtomKey → Prop) (L : Location → Prop) (l : List Demand) : Prop :=
  ∀ d ∈ l, (∀ key ∈ d.atoms, K key) ∧ ∀ place ∈ d.location?, L place

theorem within_nil : Within K L [] := fun _ hd => absurd hd List.not_mem_nil

theorem within_append : Within K L (l ++ l') ↔ Within K L l ∧ Within K L l' := List.forall_mem_append

theorem within_flatMap {α : Type} {demands : α → List Demand} {as : List α} :
    Within K L (as.flatMap demands) ↔ ∀ a ∈ as, Within K L (demands a) := by
  unfold Within
  simp only [List.mem_flatMap, forall_exists_index, and_imp]
  exact ⟨fun h a ha d hd => h d a ha hd, fun h d a ha hd => h a ha d hd⟩

theorem within_pins {k : Kind} {keys : List AtomKey} (hwhy : ∀ place ∈ why.location, L place)
    (hkeys : ∀ key ∈ keys, K key) : Within K L (keys.map (.pin · k why)) := by
  intro d hd
  obtain ⟨x, hx, rfl⟩ := List.mem_map.1 hd
  exact ⟨List.forall_mem_singleton.2 (hkeys x hx), hwhy⟩

theorem within_outer (hwhy : ∀ place ∈ why.location, L place) (hv : ∀ key ∈ v.atoms, K key) :
    Within K L (outer why v) :=
  within_pins hwhy fun key hkey => hv key (v.outerAtoms_subset hkey)

theorem within_outerAll (hwhy : ∀ place ∈ why.location, L place) (hvs : ∀ v ∈ vs, ∀ key ∈ v.atoms, K key) :
    Within K L (outerAll why vs) :=
  within_flatMap.2 fun v hv => within_outer hwhy (hvs v hv)

theorem within_pair (hwhy : ∀ place ∈ why.location, L place) (hv : ∀ key ∈ v.atoms, K key)
    (hw : ∀ key ∈ w.atoms, K key) : Within K L (outerAll why [v, w]) :=
  within_outerAll hwhy (List.forall_mem_cons.2 ⟨hv, List.forall_mem_singleton.2 hw⟩)

theorem within_throughout {k : Kind} (hwhy : ∀ place ∈ why.location, L place) (hv : ∀ key ∈ v.atoms, K key) :
    Within K L (throughout why k v) :=
  within_pins hwhy hv

theorem within_joins {as bs : List AtomKey} (ha : ∀ key ∈ as, K key) (hb : ∀ key ∈ bs, K key) :
    Within K L (joins as bs) := by
  intro d hd
  obtain ⟨⟨x, y⟩, hp, rfl⟩ := List.mem_map.1 hd
  obtain ⟨hx, hy⟩ := List.of_mem_zip hp
  exact ⟨List.forall_mem_cons.2 ⟨ha x hx, List.forall_mem_singleton.2 (hb y hy)⟩, fun _ hplace => nomatch hplace⟩

theorem within_levels (ha : ∀ key ∈ a.atoms, K key) (hb : ∀ key ∈ b.atoms, K key) : Within K L (levels a b) := by
  simp only [levels]
  have hdrop : ∀ {o : Object} {n : Nat}, (∀ key ∈ o.atoms, K key) → ∀ key ∈ o.atoms.drop n, K key :=
    fun ho key hkey => ho key (List.mem_of_mem_drop hkey)
  have ha' := hdrop (n := a.depth - min a.depth b.depth) ha
  have hb' := hdrop (n := b.depth - min a.depth b.depth) hb
  split
  · rename_i x xs y ys hx hy
    rw [hx] at ha'
    rw [hy] at hb'
    obtain ⟨hx, hxs⟩ := List.forall_mem_cons.1 ha'
    obtain ⟨hy, hys⟩ := List.forall_mem_cons.1 hb'
    refine List.forall_mem_cons.2 ⟨⟨?_, fun _ hplace => absurd hplace (Option.not_mem_none _)⟩, within_joins hxs hys⟩
    exact List.forall_mem_cons.2 ⟨hx, List.forall_mem_singleton.2 hy⟩
  · exact within_nil

theorem within_oriented {d : Direction} (ha : ∀ key ∈ a.atoms, K key) (hb : ∀ key ∈ b.atoms, K key) :
    Within K L (levels (d.orient a b).1 (d.orient a b).2) := by
  cases d with
  | forward => exact within_levels ha hb
  | backward => exact within_levels hb ha

theorem within_reject {d : Direction} (hwhy : ∀ place ∈ why.location, L place) (hv : ∀ key ∈ v.atoms, K key)
    (hw : ∀ key ∈ w.atoms, K key) : Within K L (reject why d v w) := by
  cases d with
  | forward => exact within_pair hwhy hv hw
  | backward => exact within_pair hwhy hw hv

/-! ### Along the recursion of the relations -/

mutual

theorem within_agree (hwhy : ∀ place ∈ why.location, L place) :
    ∀ v w, (∀ key ∈ v.atoms, K key) → (∀ key ∈ w.atoms, K key) → Within K L (agree why v w)
  | .object a, .object b, hv, hw => by
      simp only [agree]
      split
      · exact within_nil
      · split
        · simp only [Variable.atoms] at hv hw
          exact within_joins hv hw
        · exact within_pair hwhy hv hw
  | .code a f, .code b g, hv, hw => by
      simp only [agree]
      split
      · exact within_nil
      · split
        · simp only [Variable.atoms, List.forall_mem_append] at hv hw
          exact within_append.2 ⟨within_joins hv.1 hw.1, within_agree hwhy f g hv.2 hw.2⟩
        · exact within_pair hwhy hv hw
  | .function h r ps, .function h' r' ps', hv, hw => by
      simp only [agree]
      split
      · exact within_nil
      · split
        · simp only [Variable.atoms, List.forall_mem_append] at hv hw
          exact within_append.2 ⟨within_agree hwhy r r' hv.1 hw.1, within_agreeAll hwhy ps ps' hv.2 hw.2⟩
        · exact within_pair hwhy hv hw
  | .object _, .code .., hv, hw | .object _, .function .., hv, hw | .code .., .object _, hv, hw
  | .code .., .function .., hv, hw | .function .., .object _, hv, hw | .function .., .code .., hv, hw => by
      simp only [agree]
      exact within_pair hwhy hv hw

theorem within_agreeAll (hwhy : ∀ place ∈ why.location, L place) : ∀ vs ws,
    (∀ key ∈ Variable.atomsOfAll vs, K key) → (∀ key ∈ Variable.atomsOfAll ws, K key) →
      Within K L (agreeAll why vs ws)
  | v :: vs, w :: ws, hv, hw => by
      simp only [Variable.atomsOfAll, List.forall_mem_append] at hv hw
      simp only [agreeAll]
      exact within_append.2 ⟨within_agree hwhy v w hv.1 hw.1, within_agreeAll hwhy vs ws hv.2 hw.2⟩
  | [], _, _, _ | _ :: _, [], _, _ => by
      simp only [agreeAll]
      exact within_nil

end

mutual

theorem within_along (hwhy : ∀ place ∈ why.location, L place) (d : Direction) :
    ∀ v w, (∀ key ∈ v.atoms, K key) → (∀ key ∈ w.atoms, K key) → Within K L (along why d v w)
  | .object a, .object b, hv, hw => by
      simp only [along]
      split
      · exact within_nil
      · split
        · simp only [Variable.atoms] at hv hw
          exact within_oriented hv hw
        · exact within_reject hwhy hv hw
  | .code a f, .code b g, hv, hw => by
      simp only [along]
      split
      · exact within_nil
      · split
        · split
          · exact within_nil
          · simp only [Variable.atoms, List.forall_mem_append] at hv hw
            exact within_append.2 ⟨within_oriented hv.1 hw.1, within_along hwhy d f g hv.2 hw.2⟩
        · exact within_reject hwhy hv hw
  | .function h r ps, .function h' r' ps', hv, hw => by
      simp only [along]
      split
      · exact within_nil
      · split
        · simp only [Variable.atoms, List.forall_mem_append] at hv hw
          exact within_append.2 ⟨within_along hwhy d r r' hv.1 hw.1, within_allAlong hwhy d.turn ps ps' hv.2 hw.2⟩
        · exact within_reject hwhy hv hw
  | .object _, .code .., hv, hw | .object _, .function .., hv, hw | .code .., .object _, hv, hw
  | .code .., .function .., hv, hw | .function .., .object _, hv, hw | .function .., .code .., hv, hw => by
      simp only [along]
      exact within_reject hwhy hv hw

theorem within_allAlong (hwhy : ∀ place ∈ why.location, L place) (d : Direction) : ∀ vs ws,
    (∀ key ∈ Variable.atomsOfAll vs, K key) → (∀ key ∈ Variable.atomsOfAll ws, K key) →
      Within K L (allAlong why d vs ws)
  | v :: vs, w :: ws, hv, hw => by
      simp only [Variable.atomsOfAll, List.forall_mem_append] at hv hw
      simp only [allAlong]
      exact within_append.2 ⟨within_along hwhy d v w hv.1 hw.1, within_allAlong hwhy d vs ws hv.2 hw.2⟩
  | [], _, _, _ | _ :: _, [], _, _ => by
      simp only [allAlong]
      exact within_nil

end

theorem within_cast {location : Option Location} {safe : Bool} (hl : ∀ place ∈ location, L place)
    (hv : ∀ key ∈ v.atoms, K key) (hw : ∀ key ∈ w.atoms, K key) : Within K L (cast location safe v w) := by
  unfold cast
  split
  · split
    · simp only [Variable.atoms] at hv hw
      exact within_joins hv hw
    · simp only [Variable.atoms, List.forall_mem_append] at hv hw
      exact within_joins hv hw.1
    · simp only [Variable.atoms, List.forall_mem_append] at hv hw
      exact within_joins hv.1 hw
    · rename_i a f b g
      simp only [Variable.atoms, List.forall_mem_append] at hv hw
      exact within_append.2 ⟨within_joins hv.1 hw.1, within_agree hl f g hv.2 hw.2⟩
    · exact within_agree hl _ _ hv hw
  · exact within_pair hl hv hw

theorem within_assign {location : Option Location} (hl : ∀ place ∈ location, L place)
    (hv : ∀ key ∈ v.atoms, K key) (hw : ∀ key ∈ w.atoms, K key) : Within K L (assign v w location) := by
  unfold assign
  split
  · exact within_along hl _ w v hw hv
  · exact within_agree hl v w hv hw

theorem within_passExtra (hl : L location) (hv : ∀ key ∈ v.atoms, K key) :
    Within K L (passExtra handleVarargs variadic location v) := by
  unfold passExtra
  split
  · exact within_nil
  · exact within_outer (fun _ hplace => Option.some.inj hplace ▸ hl) hv

theorem within_passArgs {args : List (Option Variable)} (hl : L location)
    (hargs : ∀ v, some v ∈ args → ∀ key ∈ v.atoms, K key) (hparams : ∀ w ∈ vs, ∀ key ∈ w.atoms, K key) :
    Within K L (passArgs handleVarargs variadic location args vs) := by
  induction args generalizing vs with
  | nil =>
      simp only [passArgs]
      exact within_nil
  | cons arg rest ih =>
      have hrest : ∀ v, some v ∈ rest → ∀ key ∈ v.atoms, K key := fun v hv => hargs v (List.mem_cons_of_mem arg hv)
      rcases arg with _ | arg
      · simp only [passArgs]
        exact ih hrest fun w hw => hparams w (List.mem_of_mem_tail hw)
      · have harg := hargs arg List.mem_cons_self
        cases vs with
        | nil =>
            simp only [passArgs]
            exact within_append.2 ⟨within_passExtra hl harg, ih hrest hparams⟩
        | cons param params =>
            simp only [passArgs]
            obtain ⟨hparam, hparams⟩ := List.forall_mem_cons.1 hparams
            have hpass : Within K L (along ⟨"Argument passing", some location⟩ .forward arg param) :=
              within_along (fun _ hplace => Option.some.inj hplace ▸ hl) .forward arg param harg hparam
            exact within_append.2 ⟨hpass, ih hrest hparams⟩

theorem within_receive {result : Option Variable} (hl : L location) (hv : ∀ key ∈ v.atoms, K key)
    (hresult : ∀ w ∈ result, ∀ key ∈ w.atoms, K key) : Within K L (receive location v result) := by
  cases result with
  | none => exact within_nil
  | some w => exact within_along (fun _ hplace => Option.some.inj hplace ▸ hl) _ v w hv (hresult w rfl)

theorem within_neighbours (hwhy : ∀ place ∈ why.location, L place) (hvs : ∀ v ∈ vs, ∀ key ∈ v.atoms, K key) :
    Within K L (neighbours why vs) := by
  induction vs with
  | nil =>
      simp only [neighbours]
      exact within_nil
  | cons v rest ih =>
      obtain ⟨hv, hrest⟩ := List.forall_mem_cons.1 hvs
      cases rest with
      | nil =>
          simp only [neighbours]
          exact within_nil
      | cons w ws =>
          simp only [neighbours]
          exact within_append.2 ⟨within_agree hwhy v w hv (hrest w List.mem_cons_self), ih hrest⟩

end Demand

/-! ### Demands on registered atoms -/

namespace Store

variable {s t u : Store} {key x : AtomKey} {id : ConstraintId} {f : Formula} {c : Constraint} {d : Demand}

/-- Exactly the keys below the next one are registered. -/
def Packed (s : Store) : Prop := ∀ key, s.atoms.contains key = true ↔ key < s.nextKey

/-- Two stores with the same atoms. -/
structure SameAtoms (s t : Store) : Prop where
  nextKey : t.nextKey = s.nextKey
  contains : ∀ key, t.atoms.contains key = true ↔ s.atoms.contains key = true

theorem SameAtoms.refl (s : Store) : s.SameAtoms s := ⟨rfl, fun _ => .rfl⟩

theorem SameAtoms.trans (h : s.SameAtoms t) (h' : t.SameAtoms u) : s.SameAtoms u :=
  ⟨h'.nextKey.trans h.nextKey, fun key => (h'.contains key).trans (h.contains key)⟩

theorem SameAtoms.packed (h : s.SameAtoms t) (hs : s.Packed) : t.Packed := fun key => by
  rw [h.contains, h.nextKey]
  exact hs key

theorem sameAtoms_modifyAtom (s : Store) (key : AtomKey) (g : Atom → Atom) : s.SameAtoms (s.modifyAtom key g) := by
  refine ⟨rfl, fun x => ?_⟩
  unfold SortedMap.contains modifyAtom
  simp only [SortedMap.get?_modify]
  split <;> simp

/-- Registering an atom that is registered changes nothing. -/
theorem Packed.sameAtoms_ensureAtom (h : s.Packed) (hkey : key < s.nextKey) : s.SameAtoms (s.ensureAtom key) := by
  refine ⟨Nat.max_eq_left hkey, fun x => ?_⟩
  rw [contains_ensureAtom]
  exact or_iff_right_of_imp fun hx => hx ▸ (h key).2 hkey

theorem Packed.sameAtoms_attachAll (h : s.Packed) (id : ConstraintId) {keys : List AtomKey}
    (hkeys : ∀ key ∈ keys, key < s.nextKey) : s.SameAtoms (keys.foldl (attach id) s) := by
  induction keys generalizing s with
  | nil => exact .refl s
  | cons key rest ih =>
      obtain ⟨hkey, hrest⟩ := List.forall_mem_cons.1 hkeys
      have hattach : s.SameAtoms (s.attach id key) :=
        (h.sameAtoms_ensureAtom hkey).trans (sameAtoms_modifyAtom _ key _)
      exact hattach.trans (ih (hattach.packed h) (by rwa [hattach.nextKey]))

theorem sameAtoms_intern (s : Store) (c : Constraint) : s.SameAtoms (s.intern c).2 := by
  unfold intern
  split <;> exact ⟨rfl, fun _ => .rfl⟩

theorem Packed.sameAtoms_add (h : s.Packed) (hf : s.formula? id = some f) (hfilter : s.imposeFilter f = s)
    (hatoms : ∀ key ∈ f.mentions, key < s.nextKey) : s.SameAtoms (s.add id) := by
  unfold add
  split
  · simp only [hf, hfilter]
    have hkeys : ∀ key ∈ f.atoms.toList, key < s.nextKey := fun key hkey => hatoms key (Formula.mem_atoms.1 hkey)
    have hattached := h.sameAtoms_attachAll id hkeys
    exact ⟨hattached.nextKey, hattached.contains⟩
  · exact .refl s

theorem Packed.sameAtoms_post (h : s.Packed) (c : Constraint) (hfilter : ∀ t : Store, t.imposeFilter c.formula = t)
    (hatoms : ∀ key ∈ c.formula.mentions, key < s.nextKey) : s.SameAtoms (s.post c).2 := by
  have hintern := sameAtoms_intern s c
  exact hintern.trans ((hintern.packed h).sameAtoms_add (formula?_intern_self s c) (hfilter _)
    (by rwa [hintern.nextKey]))

theorem Packed.sameAtoms_addFlow (h : s.Packed) {a b : AtomKey} (ha : a < s.nextKey) (hb : b < s.nextKey) (k : Kind) :
    s.SameAtoms (s.addFlow a b k) := by
  have hinterned := (sameAtoms_intern s { formula := .equal (.atom a) (.kind k) }).trans
    (sameAtoms_intern _ { formula := .equal (.atom b) (.kind k) })
  refine hinterned.trans ((hinterned.packed h).sameAtoms_post { formula := .flow a b k } (fun _ => rfl) ?_)
  rw [hinterned.nextKey]
  exact List.forall_mem_cons.2 ⟨ha, List.forall_mem_singleton.2 hb⟩

/-- **A demand on registered atoms registers none.** -/
theorem Packed.sameAtoms_impose (h : s.Packed) (hd : ∀ key ∈ d.atoms, key < s.nextKey) :
    s.SameAtoms (s.impose d) := by
  cases d with
  | pin key k why => exact h.sameAtoms_post ⟨.pin key k, why⟩ (fun _ => rfl) hd
  | join a b =>
      obtain ⟨ha, hb⟩ := List.forall_mem_cons.1 hd
      have hb := List.forall_mem_singleton.1 hb
      have hfilter : ∀ t : Store, t.imposeFilter (.equal (.atom a) (.atom b)) = t := fun t =>
        imposeFilter_of_isDemand t (isDemand_equal a b)
      refine h.sameAtoms_post ⟨.equal (.atom a) (.atom b), {}⟩ hfilter ?_
      rcases equal_join a b with he | he
      · simp only [he]
        exact List.forall_mem_cons.2 ⟨ha, List.forall_mem_singleton.2 hb⟩
      · simp only [he]
        exact List.forall_mem_cons.2 ⟨hb, List.forall_mem_singleton.2 ha⟩
  | flow a b =>
      obtain ⟨ha, hb⟩ := List.forall_mem_cons.1 hd
      have hb := List.forall_mem_singleton.1 hb
      have hflow : ∀ {t : Store} (k : Kind), s.SameAtoms t → s.SameAtoms (t.addFlow a b k) := fun k ht =>
        ht.trans ((ht.packed h).sameAtoms_addFlow (ht.nextKey ▸ ha) (ht.nextKey ▸ hb) k)
      simp only [impose, foldl_addFlow]
      exact hflow .wild (hflow .ntArr (hflow .arr (.refl s)))

theorem Packed.sameAtoms_imposeAll (h : s.Packed) {l : List Demand} {L : Location → Prop}
    (hl : Demand.Within (· < s.nextKey) L l) :
    s.SameAtoms (s.imposeAll l) := by
  induction l generalizing s with
  | nil => exact .refl s
  | cons d rest ih =>
      obtain ⟨hd, hrest⟩ := List.forall_mem_cons.1 hl
      have himposed := h.sameAtoms_impose hd.1
      exact himposed.trans (ih (himposed.packed h) (by rwa [himposed.nextKey]))

end Store

end PointerKinds
