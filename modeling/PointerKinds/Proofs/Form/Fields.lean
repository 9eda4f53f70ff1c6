/-
How the fields of an object are written and read.

A record may be written in many ways: its fields stand in any order among others that mean
nothing, and a field that says the same as its absence may be left out.  What must hold for
reading is that no field of the record is written twice.

So two predicates on the fields of an object say what a way to write a record is, and each way
of reading a field comes with a lemma that it gives what was written.  In the other direction,
whatever was read was read from a part of the value, so what holds of all that a reader of the
part gives holds of what was read.
-/
import Mathlib.Data.List.Forall2
import PointerKinds.Json.Value

namespace PointerKinds

namespace Json

variable {α β : Type} {fields : List (String × Json)} {name : String} {names : List String} {j v : Json} {a : α}
  {W : Json → Prop} {isDefault : Prop} {read : Json → Option α} {P : α → Prop}

/-! ### Ways to write -/

/-- The values that are written under a name. -/
def under (name : String) (fields : List (String × Json)) : List Json :=
  fields.filterMap fun f => if f.1 = name then some f.2 else none

/-- A field is written once, and in a good way. -/
def Given (fields : List (String × Json)) (name : String) (W : Json → Prop) : Prop :=
  ∃ v, under name fields = [v] ∧ W v

/-- A field is written once, and in a good way, or is left out where that means the same. -/
def Allowed (fields : List (String × Json)) (name : String) (isDefault : Prop) (W : Json → Prop) : Prop :=
  under name fields = [] ∧ isDefault ∨ Given fields name W

/-- A way to write a value or nothing. -/
def WrittenOption (W : α → Json → Prop) : Option α → Json → Prop
  | none, j => j = .null
  | some a, j => W a j

/-- A way to write a list of values. -/
def WrittenList (W : α → Json → Prop) (l : List α) (j : Json) : Prop :=
  ∃ items, j = .array items ∧ List.Forall₂ W l items

theorem writtenOption_eq (f : α → Json) (o : Option α) : WrittenOption (fun a j => j = f a) o (.option f o) := by
  cases o <;> rfl

theorem writtenOption_option {W : α → Json → Prop} {f : α → Json} (h : ∀ a, W a (f a)) (o : Option α) :
    WrittenOption W o (.option f o) := by
  cases o with
  | none => rfl
  | some a => exact h a

theorem writtenList_list {W : α → Json → Prop} {f : α → Json} {l : List α} (h : ∀ a ∈ l, W a (f a)) :
    WrittenList W l (.list f l) := by
  refine ⟨_, rfl, ?_⟩
  rw [List.forall₂_map_right_iff, List.forall₂_same]
  exact h

theorem Given.imp {W' : Json → Prop} (h : Given fields name W) (himp : ∀ v, W v → W' v) : Given fields name W' := by
  obtain ⟨v, hv, hW⟩ := h
  exact ⟨v, hv, himp v hW⟩

/-! ### Fields -/

theorem valuesOf_eq (name : String) (fields : List (String × Json)) :
    ((object fields).valuesOf name).map (·.1) = under name fields := by
  unfold valuesOf under
  rw [List.map_filterMap]
  conv_rhs => rw [← List.attach_map_subtype_val fields, List.filterMap_map]
  refine List.filterMap_congr fun f _ => ?_
  simp only [Function.comp]
  split <;> rfl

theorem Given.field? (h : Given fields name W) :
    ∃ v : Part (object fields), (object fields).field? name = some (some v) ∧ W v.1 := by
  obtain ⟨v, hv, hW⟩ := h
  rw [← valuesOf_eq] at hv
  obtain ⟨part, hpart, rfl⟩ := List.map_eq_singleton_iff.1 hv
  refine ⟨part, ?_, hW⟩
  unfold Json.field?
  rw [hpart]

theorem Allowed.field? (h : Allowed fields name isDefault W) :
    (object fields).field? name = some none ∧ isDefault ∨
      ∃ v : Part (object fields), (object fields).field? name = some (some v) ∧ W v.1 := by
  rcases h with ⟨hnone, hdefault⟩ | h
  · refine .inl ⟨?_, hdefault⟩
    rw [← valuesOf_eq, List.map_eq_nil_iff] at hnone
    unfold Json.field?
    rw [hnone]
  · exact .inr h.field?

/-- A field that must be there is read. -/
theorem Given.required? (h : Given fields name W) (read : Json → Option α) (hread : ∀ v, W v → read v = some a) :
    ∃ part, (object fields).field? name = some part ∧ Json.required? read part = some a := by
  obtain ⟨v, hv, hW⟩ := h.field?
  exact ⟨some v, hv, hread v.1 hW⟩

/-- A field that stands for a default is read, or stands for it. -/
theorem Allowed.withDefault? {default : α} (h : Allowed fields name (a = default) W) (read : Json → Option α)
    (hread : ∀ v, W v → read v = some a) :
    ∃ part, (object fields).field? name = some part ∧ Json.withDefault? default read part = some a := by
  rcases h.field? with ⟨hnone, rfl⟩ | ⟨v, hv, hW⟩
  · exact ⟨none, hnone, rfl⟩
  · exact ⟨some v, hv, hread v.1 hW⟩

theorem nullable?_of_writtenOption {W : α → Json → Prop} {o : Option α} (h : WrittenOption W o v)
    (read : Json → Option α) (hnull : read .null = none) (hread : ∀ a ∈ o, ∀ v, W a v → read v = some a) :
    nullable? read v = some o := by
  cases o with
  | none => rw [show v = .null from h, nullable?]
  | some a =>
      have hvalue := hread a rfl v h
      cases v with
      | null => exact nomatch hnull.symm.trans hvalue
      | _ => exact congrArg (Option.map some) hvalue

/-- A field that may be missing is read, whether it is missing, null or a value. -/
theorem Allowed.optional? {W : α → Json → Prop} {o : Option α} (h : Allowed fields name (o = none) (WrittenOption W o))
    (read : Json → Option α) (hnull : read .null = none) (hread : ∀ a ∈ o, ∀ v, W a v → read v = some a) :
    ∃ part, (object fields).field? name = some part ∧ Json.optional? read part = some o :=
  h.withDefault? _ fun _ hv => nullable?_of_writtenOption hv read hnull hread

/-! ### Fields with plain values -/

theorem Given.string {text : String} (h : Given fields name (· = .string text)) :
    ∃ part, (object fields).field? name = some part ∧ Json.required? string? part = some text :=
  h.required? string? fun _ hv => hv ▸ rfl

theorem Given.bool {b : Bool} (h : Given fields name (· = .bool b)) :
    ∃ part, (object fields).field? name = some part ∧ Json.required? bool? part = some b :=
  h.required? bool? fun _ hv => hv ▸ rfl

theorem natBelow?_of_lt {limit n : Nat} (h : n < limit) : natBelow? limit (.nat n) = some n := by
  unfold natBelow? Json.nat
  simp [h]

theorem Given.nat {limit n : Nat} (h : Given fields name (· = .nat n)) (hn : n < limit) :
    ∃ part, (object fields).field? name = some part ∧ Json.required? (natBelow? limit) part = some n :=
  h.required? (natBelow? limit) fun _ hv => hv ▸ natBelow?_of_lt hn

theorem Allowed.nat {limit : Nat} {o : Option Nat}
    (h : Allowed fields name (o = none) (WrittenOption (fun n v => v = .nat n) o)) (ho : ∀ n ∈ o, n < limit) :
    ∃ part, (object fields).field? name = some part ∧ Json.optional? (natBelow? limit) part = some o :=
  h.optional? (natBelow? limit) rfl fun n hn _ hv => hv ▸ natBelow?_of_lt (ho n hn)

/-! ### Records and lists -/

theorem record?_object (names : List String) (fields : List (String × Json)) :
    (object fields).record? names = names.mapM fun name => (object fields).field? name := rfl

theorem content?_object (s : Strictness) (names : List String) (fields : List (String × Json)) :
    (object fields).content? s names = names.mapM fun name => (object fields).field? name := by
  cases s <;> rfl

/-- Reading all items gives a list whose items were each read from the item at the same place. -/
theorem mapM_eq_some_iff {f : β → Option α} {items : List β} {l : List α} :
    items.mapM f = some l ↔ List.Forall₂ (fun a v => f v = some a) l items := by
  induction items generalizing l with
  | nil =>
      rw [List.mapM_nil, List.forall₂_nil_right_iff]
      exact ⟨fun h => (Option.some.inj h).symm, fun h => congrArg some h.symm⟩
  | cons v items ih =>
      rw [List.mapM_cons, List.forall₂_cons_right_iff]
      constructor
      · intro h
        obtain ⟨a, ha, h⟩ := Option.bind_eq_some_iff.1 h
        obtain ⟨as, has, h⟩ := Option.bind_eq_some_iff.1 h
        exact ⟨a, as, ha, ih.1 has, (Option.some.inj h).symm⟩
      · rintro ⟨a, as, ha, has, rfl⟩
        rw [ha, ih.2 has]
        rfl

theorem exists_of_mapM {f : β → Option α} {items : List β} {l : List α} (h : items.mapM f = some l) (ha : a ∈ l) :
    ∃ v ∈ items, f v = some a := by
  have hitems := mapM_eq_some_iff.1 h
  clear h
  induction hitems with
  | nil => exact absurd ha List.not_mem_nil
  | cons hv _ ih =>
      rcases List.mem_cons.1 ha with rfl | ha
      · exact ⟨_, List.mem_cons_self, hv⟩
      · obtain ⟨w, hw, hread⟩ := ih ha
        exact ⟨w, List.mem_cons_of_mem _ hw, hread⟩

theorem list?_array (read : Json → Option α) (items : List Json) : list? read (.array items) = items.mapM read := by
  unfold list? items?
  rw [Option.bind_some, List.mapM_map]
  conv_rhs => rw [← List.attach_map_subtype_val items, List.mapM_map]
  rfl

theorem list?_of_writtenList {W : α → Json → Prop} {l : List α} (h : WrittenList W l j)
    (hread : ∀ a ∈ l, ∀ v, W a v → read v = some a) : list? read j = some l := by
  obtain ⟨items, rfl, hitems⟩ := h
  rw [list?_array, mapM_eq_some_iff]
  induction hitems with
  | nil => exact .nil
  | cons hv _ ih =>
      exact .cons (hread _ List.mem_cons_self _ hv) (ih fun a ha => hread a (List.mem_cons_of_mem _ ha))

/-! ### What was read -/

theorem sizeOf_part_lt {j : Json} (v : Part j) : sizeOf v.1 < sizeOf j := v.2

theorem sizeOf_inner_lt {j : Json} {v : Part j} (w : Part v.1) : sizeOf w.1 < sizeOf j := Nat.lt_trans w.2 v.2

theorem of_required? {j : Json} {part : Option (Part j)} (h : required? read part = some a)
    (hread : ∀ v : Part j, read v.1 = some a → P a) : P a := by
  obtain ⟨v, -, hv⟩ := Option.bind_eq_some_iff.1 h
  exact hread v hv

theorem of_withDefault? {default : α} {j : Json} {part : Option (Part j)} (h : withDefault? default read part = some a)
    (hdefault : P default) (hread : ∀ v : Part j, read v.1 = some a → P a) : P a := by
  cases part with
  | none => exact Option.some.inj h ▸ hdefault
  | some v => exact hread v h

theorem of_nullable? {o : Option α} (h : nullable? read v = some o) (hread : ∀ a, read v = some a → P a) :
    ∀ a ∈ o, P a := by
  intro a ha
  unfold nullable? at h
  split at h
  · rw [← Option.some.inj h] at ha
    exact nomatch ha
  · obtain ⟨b, hb, rfl⟩ := Option.map_eq_some_iff.1 h
    exact Option.some.inj ha ▸ hread b hb

theorem of_optional? {o : Option α} {j : Json} {part : Option (Part j)} (h : optional? read part = some o)
    (hread : ∀ (v : Part j) a, read v.1 = some a → P a) : ∀ a ∈ o, P a :=
  of_withDefault? (P := fun o => ∀ a ∈ o, P a) h (fun _ ha => nomatch ha) fun v hv => of_nullable? hv (hread v)

theorem lt_of_natBelow? {limit n : Nat} (h : natBelow? limit j = some n) : n < limit := by
  unfold natBelow? at h
  split at h
  · split at h
    · next hi =>
        have := Option.some.inj h
        omega
    · exact nomatch h
  · exact nomatch h

/-- A number that was read is in range. -/
theorem lt_of_required? {limit n : Nat} {j : Json} {part : Option (Part j)}
    (h : required? (natBelow? limit) part = some n) : n < limit :=
  of_required? (P := (· < limit)) h fun _ => lt_of_natBelow?

theorem lt_of_optional? {limit : Nat} {o : Option Nat} {j : Json} {part : Option (Part j)}
    (h : optional? (natBelow? limit) part = some o) : ∀ n ∈ o, n < limit :=
  of_optional? h fun _ _ => lt_of_natBelow?

theorem of_list? {l : List α} (h : list? read j = some l) (hread : ∀ (v : Part j) a, read v.1 = some a → P a) :
    ∀ a ∈ l, P a := by
  obtain ⟨items, -, hmapped⟩ := Option.bind_eq_some_iff.1 h
  intro a ha
  obtain ⟨v, -, hv⟩ := exists_of_mapM hmapped ha
  exact hread v a hv

end Json

end PointerKinds
