/-
The kind of a length is decided by its leaves.

A length is classified from the inside out: an operator joins two lengths if one of them is constant,
or if both are of one kind.  What comes out does not depend on how the operators are nested.  There is
a usable length exactly if every name that occurs is in scope and all of them are of one kind, and it
is of that kind.

`Settles` carries the induction.  A kind settles some leaves if one of them has it and each is constant
or has it too; no two kinds settle the same leaves, and of the kinds that settle two lists, what an
operator makes is the kind that settles both lists together, if there is one.  Saying it of the leaves
that are not constant alone would not do, for there may be none.

Whoever asks for a length is answered even if there is none that is usable.  `Appraisal` has a place
for that, and to appraise is to classify with such answers throughout.
-/
import PointerKinds.Bounds

namespace PointerKinds

namespace BoundsKind

variable {a b k : BoundsKind} {as bs : List BoundsKind}

/-- One of several kinds is this one, and each of them is constant or this one. -/
def Settles (kinds : List BoundsKind) (k : BoundsKind) : Prop := k ∈ kinds ∧ ∀ x ∈ kinds, x = constant ∨ x = k

theorem settles_singleton : Settles [a] k ↔ k = a := by
  unfold Settles
  rw [List.mem_singleton, List.forall_mem_singleton, and_iff_left_of_imp]
  rintro rfl
  exact .inr rfl

/-- Kinds that are all constant or one other are settled by that, or else by being constant. -/
theorem exists_settles (hne : as ≠ []) (h : ∀ x ∈ as, x = constant ∨ x = k) : ∃ a, Settles as a := by
  by_cases hk : k ∈ as
  · exact ⟨k, hk, h⟩
  · have hconstant : ∀ x ∈ as, x = constant := fun x hx => (h x hx).resolve_right fun he => hk (he ▸ hx)
    obtain ⟨x, hx⟩ := List.exists_mem_of_ne_nil as hne
    exact ⟨constant, hconstant x hx ▸ hx, fun y hy => .inl (hconstant y hy)⟩

/-- Kinds are settled exactly if those that are not constant agree. -/
theorem exists_settles_iff (hne : as ≠ []) :
    (∃ k, Settles as k) ↔ ∀ x ∈ as, ∀ y ∈ as, x ≠ constant → y ≠ constant → x = y := by
  constructor
  · rintro ⟨k, -, h⟩ x hx y hy hxc hyc
    exact ((h x hx).resolve_left hxc).trans ((h y hy).resolve_left hyc).symm
  · intro h
    by_cases hnamed : ∃ x ∈ as, x ≠ constant
    · obtain ⟨x, hx, hxc⟩ := hnamed
      refine ⟨x, hx, fun y hy => ?_⟩
      by_cases hyc : y = constant
      · exact .inl hyc
      · exact .inr (h y hy x hx hyc hxc)
    · have hconstant : ∀ x ∈ as, x = constant := fun x hx =>
        Decidable.byContradiction fun hxc => hnamed ⟨x, hx, hxc⟩
      exact exists_settles (k := constant) hne fun x hx => .inl (hconstant x hx)

/-- Two kinds are joined into one of them, where the other is constant or the same. -/
theorem combineKinds?_eq_some_iff : Bounds.combineKinds? a b = some k ↔
    (k = a ∨ k = b) ∧ (a = constant ∨ a = k) ∧ (b = constant ∨ b = k) := by
  unfold Bounds.combineKinds?
  grind

/-- **An operator joins what settles its two sides into what settles both together.** -/
theorem Settles.combineKinds?_iff (ha : Settles as a) (hb : Settles bs b) :
    Bounds.combineKinds? a b = some k ↔ Settles (as ++ bs) k := by
  obtain ⟨hamem, has⟩ := ha
  obtain ⟨hbmem, hbs⟩ := hb
  unfold Settles
  rw [combineKinds?_eq_some_iff, List.mem_append, List.forall_mem_append]
  constructor
  · rintro ⟨hk, hak, hbk⟩
    refine ⟨?_, fun x hx => ?_, fun x hx => ?_⟩
    · rcases hk with rfl | rfl
      · exact .inl hamem
      · exact .inr hbmem
    · rcases has x hx with hc | rfl
      · exact .inl hc
      · exact hak
    · rcases hbs x hx with hc | rfl
      · exact .inl hc
      · exact hbk
  · rintro ⟨hk, hask, hbsk⟩
    have hak := hask a hamem
    have hbk := hbsk b hbmem
    refine ⟨hk.imp (fun hmem => ?_) fun hmem => ?_, hak, hbk⟩
    · rcases has k hmem with rfl | hka
      · exact (hak.elim id id).symm
      · exact hka
    · rcases hbs k hmem with rfl | hkb
      · exact (hbk.elim id id).symm
      · exact hkb

end BoundsKind

/-! ### Leaves -/

namespace BoundsExpr

variable {owner : BoundsOwner} {e : BoundsExpr} {b : Bounds}

/-- What operators put together, from left to right. -/
def leaves : BoundsExpr → List BoundsExpr
  | binary _ lhs rhs => lhs.leaves ++ rhs.leaves
  | leaf => [leaf]

/-- Where the name of a leaf comes from.  Numbers and the names of types and globals are constant. -/
def nameKind : BoundsExpr → BoundsKind
  | field .. => .field
  | param _ => .param
  | «local» _ => .local
  | _ => .constant

/-- Whether a leaf means anything in the length of a pointer: fields do in their own record, and the
names of a function's variables do outside records. -/
def InScope (owner : BoundsOwner) : BoundsExpr → Prop
  | field record _ => owner = .field record
  | param _ | «local» _ => owner = .variable
  | _ => True

/-- The whole expression, with brackets around every operator and its sides. -/
def text : BoundsExpr → String
  | literal n => toString n
  | sizeOf ty => "sizeof(" ++ ty ++ ")"
  | stringLiteral text => toString text.length
  | global name | param name | «local» name | field _ name => name
  | binary op lhs rhs => "(" ++ lhs.text ++ " " ++ op ++ " " ++ rhs.text ++ ")"

/-- The kinds of the leaves. -/
def kinds (e : BoundsExpr) : List BoundsKind := e.leaves.map nameKind

theorem kinds_binary (op : String) (lhs rhs : BoundsExpr) : (binary op lhs rhs).kinds = lhs.kinds ++ rhs.kinds := by
  simp only [kinds, leaves, List.map_append]

theorem kinds_ne_nil (e : BoundsExpr) : e.kinds ≠ [] := by
  induction e with
  | binary op lhs rhs ihl _ =>
      rw [kinds_binary]
      exact List.append_ne_nil_of_left_ne_nil ihl _
  | _ => exact List.cons_ne_nil _ _

/-- No leaf is a size in bytes. -/
theorem ne_byteCount_of_mem_kinds {k : BoundsKind} (hk : k ∈ e.kinds) : k ≠ .byteCount := by
  obtain ⟨leaf, -, rfl⟩ := List.mem_map.1 hk
  cases leaf <;> exact BoundsKind.noConfusion

/-! ### Classifying -/

theorem combine?_eq_some_iff {op : String} {x y : Option Bounds} : Bounds.combine? op x y = some b ↔
    ∃ c, x = some c ∧ ∃ d, y = some d ∧ Bounds.combineKinds? c.kind d.kind = some b.kind ∧
      b.expr = "(" ++ c.expr ++ " " ++ op ++ " " ++ d.expr ++ ")" := by
  unfold Bounds.combine?
  simp only [Option.bind_eq_some_iff, Option.map_eq_some_iff]
  refine exists_congr fun c => and_congr_right fun _ => exists_congr fun d => and_congr_right fun _ => ?_
  constructor
  · rintro ⟨k, hk, rfl⟩
    exact ⟨hk, rfl⟩
  · rintro ⟨hk, hexpr⟩
    exact ⟨b.kind, hk, hexpr ▸ rfl⟩

/-- What has to hold of a leaf. -/
theorem settled_leaf_iff (he : e.leaves = [e]) :
    ((∀ leaf ∈ e.leaves, leaf.InScope owner) ∧ BoundsKind.Settles e.kinds b.kind ∧ b.expr = e.text) ↔
      e.InScope owner ∧ b = ⟨e.nameKind, e.text⟩ := by
  have hkinds : e.kinds = [e.nameKind] := by simp only [kinds, he, List.map_cons, List.map_nil]
  rw [he, hkinds, List.forall_mem_singleton, BoundsKind.settles_singleton]
  cases b
  rw [Bounds.mk.injEq]

/-- **An expression gives a length if its leaves are in scope and settled**, of the kind that settles them
and with the text of the whole. -/
theorem classify?_eq_some_iff : e.classify? owner = some b ↔
    (∀ leaf ∈ e.leaves, leaf.InScope owner) ∧ BoundsKind.Settles e.kinds b.kind ∧ b.expr = e.text := by
  induction e generalizing b with
  | literal | sizeOf | stringLiteral | global =>
      rw [settled_leaf_iff rfl]
      simp only [classify?, Option.some.injEq, InScope, true_and, nameKind, text, eq_comm]
  | param | «local» | field =>
      rw [settled_leaf_iff rfl]
      simp only [classify?, Option.ite_none_right_eq_some, Option.some.injEq, InScope, nameKind, text, eq_comm (a := b)]
  | binary op lhs rhs ihl ihr =>
      simp only [classify?, leaves, text, kinds_binary, combine?_eq_some_iff, List.forall_mem_append]
      constructor
      · rintro ⟨c, hc, d, hd, hkind, hexpr⟩
        obtain ⟨hscopel, hsettlesl, htextl⟩ := ihl.1 hc
        obtain ⟨hscoper, hsettlesr, htextr⟩ := ihr.1 hd
        exact ⟨⟨hscopel, hscoper⟩, (hsettlesl.combineKinds?_iff hsettlesr).1 hkind, htextl ▸ htextr ▸ hexpr⟩
      · rintro ⟨⟨hscopel, hscoper⟩, hsettles, hexpr⟩
        obtain ⟨hleft, hright⟩ := List.forall_mem_append.1 hsettles.2
        obtain ⟨k, hk⟩ := BoundsKind.exists_settles lhs.kinds_ne_nil hleft
        obtain ⟨l, hl⟩ := BoundsKind.exists_settles rhs.kinds_ne_nil hright
        exact ⟨⟨k, lhs.text⟩, ihl.2 ⟨hscopel, hk, rfl⟩, ⟨l, rhs.text⟩, ihr.2 ⟨hscoper, hl, rfl⟩,
          (hk.combineKinds?_iff hl).2 hsettles, hexpr⟩

end BoundsExpr

/-! ### Answers -/

/-- What is answered about a length.  One that is not usable has no kind. -/
structure Appraisal where
  kind : Option BoundsKind
  expr : String
deriving DecidableEq

namespace Appraisal

/-- The answer where there is no usable length. -/
def unusable : Appraisal := ⟨none, ""⟩

/-- The answer about a length, if there is one. -/
def ofBounds : Option Bounds → Appraisal
  | some b => ⟨some b.kind, b.expr⟩
  | none => unusable

/-- Joins two answers by an operator.  What is not usable makes the whole unusable, and what is
constant takes on the kind of the other side. -/
def combine (op : String) (a b : Appraisal) : Appraisal :=
  let joined (k : BoundsKind) : Appraisal := ⟨some k, "(" ++ a.expr ++ " " ++ op ++ " " ++ b.expr ++ ")"⟩
  match a.kind, b.kind with
  | none, _ | _, none => unusable
  | some .constant, some k | some k, some .constant => joined k
  | some k, some l => if k = l then joined k else unusable

theorem kind_ofBounds (x : Option Bounds) : (ofBounds x).kind = x.map (·.kind) := by cases x <;> rfl

/-- Joining answers is joining lengths. -/
theorem combine_ofBounds (op : String) (x y : Option Bounds) :
    combine op (ofBounds x) (ofBounds y) = ofBounds (Bounds.combine? op x y) := by
  cases x with
  | none => rfl
  | some b =>
      cases y with
      | none => rfl
      | some c =>
          obtain ⟨k, t⟩ := b
          obtain ⟨l, u⟩ := c
          cases k <;> cases l <;> rfl

end Appraisal

namespace BoundsExpr

/-- What is answered about the length that an expression gives to a pointer. -/
def appraise (owner : BoundsOwner) : BoundsExpr → Appraisal
  | literal n => ⟨some .constant, toString n⟩
  | sizeOf ty => ⟨some .constant, "sizeof(" ++ ty ++ ")"⟩
  | stringLiteral text => ⟨some .constant, toString text.length⟩
  | global name => ⟨some .constant, name⟩
  | field record name =>
    match owner with
    | .field own => if record = own then ⟨some .field, name⟩ else .unusable
    | .variable => .unusable
  | param name =>
    match owner with
    | .field _ => .unusable
    | .variable => ⟨some .param, name⟩
  | «local» name =>
    match owner with
    | .field _ => .unusable
    | .variable => ⟨some .local, name⟩
  | binary op lhs rhs => (lhs.appraise owner).combine op (rhs.appraise owner)

/-- To appraise an expression is to classify it. -/
theorem appraise_eq (owner : BoundsOwner) (e : BoundsExpr) : e.appraise owner = .ofBounds (e.classify? owner) := by
  induction e with
  | literal | sizeOf | stringLiteral | global => rfl
  | param | «local» => cases owner <;> rfl
  | field record name =>
      cases owner with
      | «variable» => rfl
      | field own =>
          simp only [appraise, classify?, BoundsOwner.field.injEq, eq_comm (a := own)]
          split <;> rfl
  | binary op lhs rhs ihl ihr => rw [appraise, ihl, ihr, Appraisal.combine_ofBounds, classify?]

/-- The kind that is answered is the one that settles the leaves, if they are in scope. -/
theorem kind_appraise_iff {owner : BoundsOwner} {e : BoundsExpr} {k : BoundsKind} :
    (e.appraise owner).kind = some k ↔ (∀ leaf ∈ e.leaves, leaf.InScope owner) ∧ BoundsKind.Settles e.kinds k := by
  rw [appraise_eq, Appraisal.kind_ofBounds, Option.map_eq_some_iff]
  constructor
  · rintro ⟨b, hb, rfl⟩
    obtain ⟨hscope, hsettles, -⟩ := classify?_eq_some_iff.1 hb
    exact ⟨hscope, hsettles⟩
  · rintro ⟨hscope, hsettles⟩
    exact ⟨⟨k, e.text⟩, classify?_eq_some_iff.2 ⟨hscope, hsettles, rfl⟩, rfl⟩

/-- The text that is answered is that of the whole, or nothing. -/
theorem expr_appraise (owner : BoundsOwner) (e : BoundsExpr) :
    (e.appraise owner).expr = if (e.appraise owner).kind = none then "" else e.text := by
  rw [appraise_eq]
  cases hb : e.classify? owner with
  | none => rfl
  | some b =>
      obtain ⟨-, -, htext⟩ := classify?_eq_some_iff.1 hb
      exact htext

/-- **The leaves of an expression decide what length it gives.**  It gives one that is usable exactly if
every leaf is in scope and those that are not constant are of one kind.  Then it is of that kind, or
constant if there is no such leaf, never a size in bytes, and its text is that of the whole with all
brackets; otherwise the text is empty.  So expressions with the same leaves, however they are put
together and by whatever operators, give lengths of the same kind or none. -/
theorem appraise_by_leaves (owner : BoundsOwner) (e : BoundsExpr) :
    let a := e.appraise owner
    a = .ofBounds (e.classify? owner) ∧
    (a.kind ≠ none ↔ (∀ leaf ∈ e.leaves, leaf.InScope owner) ∧
      ∀ x ∈ e.leaves, ∀ y ∈ e.leaves, x.nameKind ≠ .constant → y.nameKind ≠ .constant → x.nameKind = y.nameKind) ∧
    (∀ k, a.kind = some k →
      (∀ leaf ∈ e.leaves, leaf.nameKind ≠ .constant → k = leaf.nameKind) ∧
      ((∀ leaf ∈ e.leaves, leaf.nameKind = .constant) → k = .constant) ∧
      k ≠ .byteCount ∧ a.expr = e.text) ∧
    (a.kind = none → a.expr = "") ∧
    ∀ e' : BoundsExpr, (∀ leaf, leaf ∈ e'.leaves ↔ leaf ∈ e.leaves) → (e'.appraise owner).kind = a.kind := by
  refine ⟨appraise_eq owner e, ?_, fun k hk => ?_, fun hnone => ?_, fun e' hleaves => ?_⟩
  · rw [Option.ne_none_iff_exists']
    simp only [kind_appraise_iff, exists_and_left, BoundsKind.exists_settles_iff e.kinds_ne_nil]
    simp only [kinds, List.forall_mem_map]
  · obtain ⟨-, hmem, hall⟩ := kind_appraise_iff.1 hk
    refine ⟨fun leaf hleaf hnamed => ?_, fun hconstant => ?_, ne_byteCount_of_mem_kinds hmem, ?_⟩
    · exact ((hall _ (List.mem_map_of_mem hleaf)).resolve_left hnamed).symm
    · obtain ⟨leaf, hleaf, rfl⟩ := List.mem_map.1 hmem
      exact hconstant leaf hleaf
    · rw [expr_appraise, if_neg (hk ▸ Option.some_ne_none k)]
  · rw [expr_appraise, if_pos hnone]
  · have hkinds : ∀ x, x ∈ e'.kinds ↔ x ∈ e.kinds := fun x => by
      simp only [kinds, List.mem_map, hleaves]
    refine Option.ext fun k => ?_
    simp only [kind_appraise_iff, BoundsKind.Settles, hleaves, hkinds]

/-- Names of parameters go with constants on either side, and not with names of locals. -/
example :
    let count := binary "*" (binary "+" (literal 1) (param "n")) (sizeOf "int")
    count.appraise .variable = ⟨some .param, "((1 + n) * sizeof(int))"⟩ ∧
      (binary "-" count («local» "m")).appraise .variable = .unusable := by
  decide

end BoundsExpr

end PointerKinds
