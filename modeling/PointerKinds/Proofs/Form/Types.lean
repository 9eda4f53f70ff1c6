/-
Locations, types and lengths survive being written and read.

Three things are said of each.  A value is in range if its numbers fit into the words that the
form has for them.  A value in range is read from every way to write it.  And whatever is read, is
in range, however it was written.  Types and lengths are made of their own kind, so the first is a
recursion on what is written and the last on the value that is read.
-/
import PointerKinds.Form.Bounds
import PointerKinds.Form.CType
import PointerKinds.Form.Basic
import PointerKinds.Proofs.Form.Fields

namespace PointerKinds

open Json (Given Allowed WrittenOption WrittenList)

/-! ### Names -/

theorem ScalarClass.ofName?_name (c : ScalarClass) : ofName? c.name = some c := by
  cases c <;> rfl

theorem CheckedForm.ofName?_name (c : CheckedForm) : ofName? c.name = some c := by
  cases c <;> rfl

/-! ### Locations -/

namespace Location

variable {l : Location} {j : Json}

/-- The numbers of a location have 32 bits. -/
structure InRange (l : Location) : Prop where
  line : l.line < Json.wordLimit
  col : l.col < Json.wordLimit
  endCol : ∀ c ∈ l.endCol, c < Json.wordLimit

/-- A way to write a location. -/
def WrittenAs (l : Location) (j : Json) : Prop :=
  ∃ fields, j = .object fields ∧ Given fields "file" (· = .string l.file) ∧ Given fields "line" (· = .nat l.line) ∧
    Given fields "col" (· = .nat l.col) ∧
    Allowed fields "end_col" (l.endCol = none) (WrittenOption (fun c j => j = .nat c) l.endCol)

theorem writtenAs_toJson (l : Location) : l.WrittenAs l.toJson := by
  refine ⟨_, rfl, ⟨_, rfl, rfl⟩, ⟨_, rfl, rfl⟩, ⟨_, rfl, rfl⟩, .inr ⟨_, rfl, ?_⟩⟩
  exact Json.writtenOption_eq .nat l.endCol

theorem ofJson?_of_writtenAs (hl : l.InRange) (h : l.WrittenAs j) : ofJson? j = some l := by
  obtain ⟨fields, rfl, hfile, hline, hcol, hendCol⟩ := h
  obtain ⟨file, hfile, rfile⟩ := hfile.string
  obtain ⟨line, hline, rline⟩ := hline.nat hl.line
  obtain ⟨col, hcol, rcol⟩ := hcol.nat hl.col
  obtain ⟨endCol, hendCol, rendCol⟩ := hendCol.nat hl.endCol
  simp only [ofJson?, Json.record?_object, List.mapM_cons, List.mapM_nil, hfile, hline, hcol, hendCol,
    Option.bind_eq_bind, Option.bind_some, Option.pure_def, Json.word?, rfile, rline, rcol, rendCol]

theorem inRange_of_ofJson? (h : ofJson? j = some l) : l.InRange := by
  unfold ofJson? at h
  split at h
  · next file line col endCol _ =>
      obtain ⟨file, -, h⟩ := Option.bind_eq_some_iff.1 h
      obtain ⟨line, hline, h⟩ := Option.bind_eq_some_iff.1 h
      obtain ⟨col, hcol, h⟩ := Option.bind_eq_some_iff.1 h
      obtain ⟨endCol, hendCol, h⟩ := Option.bind_eq_some_iff.1 h
      obtain rfl := Option.some.inj h
      exact ⟨Json.lt_of_required? hline, Json.lt_of_required? hcol, Json.lt_of_optional? hendCol⟩
  · exact nomatch h

end Location

/-! ### Types -/

namespace CType

variable {s : Json.Strictness} {j v : Json} {fields : List (String × Json)}

mutual

/-- The sizes of the arrays in a type have 64 bits. -/
def InRange : CType → Prop
  | pointer pointee _ => pointee.InRange
  | array element size => element.InRange ∧ ∀ n ∈ size, n < Json.longWordLimit
  | function ret params _ => ret.InRange ∧ AllInRange params
  | void | scalar .. | record _ => True

/-- The same for several types. -/
def AllInRange : List CType → Prop
  | [] => True
  | t :: ts => t.InRange ∧ AllInRange ts

end

theorem allInRange_iff {ts : List CType} : AllInRange ts ↔ ∀ t ∈ ts, t.InRange := by
  induction ts with
  | nil => exact ⟨fun _ t ht => absurd ht List.not_mem_nil, fun _ => trivial⟩
  | cons t ts ih => rw [AllInRange, ih, List.forall_mem_cons]

mutual

/-- A way to write a type. -/
def WrittenAs : CType → Json → Prop
  | void, j => j = .string "void"
  | scalar name arithmetic, j =>
    ∃ fields, j = .object [("scalar", .object fields)] ∧ Given fields "name" (· = .string name) ∧
      Given fields "class" (· = .string arithmetic.name)
  | record tag, j => j = .object [("record", .string tag)]
  | pointer pointee checked, j =>
    ∃ fields, j = .object [("pointer", .object fields)] ∧ Given fields "pointee" (fun v => pointee.WrittenAs v) ∧
      Allowed fields "checked" (checked = none) (WrittenOption (fun c v => v = .string c.name) checked)
  | array element size, j =>
    ∃ fields, j = .object [("array", .object fields)] ∧ Given fields "element" (fun v => element.WrittenAs v) ∧
      Allowed fields "size" (size = none) (WrittenOption (fun n v => v = .nat n) size)
  | function ret params variadic, j =>
    ∃ fields, j = .object [("function", .object fields)] ∧ Given fields "ret" (fun v => ret.WrittenAs v) ∧
      Given fields "params" (fun v => ∃ items, v = .array items ∧ AllWrittenAs params items) ∧
      Allowed fields "variadic" (variadic = false) (· = .bool variadic)

/-- A way to write several types. -/
def AllWrittenAs : List CType → List Json → Prop
  | [], [] => True
  | t :: ts, v :: vs => t.WrittenAs v ∧ AllWrittenAs ts vs
  | _, _ => False

end

mutual

theorem writtenAs_toJson : ∀ t : CType, t.WrittenAs t.toJson
  | void => rfl
  | scalar .. => ⟨_, rfl, ⟨_, rfl, rfl⟩, ⟨_, rfl, rfl⟩⟩
  | record _ => rfl
  | pointer pointee checked =>
      ⟨_, rfl, ⟨_, rfl, writtenAs_toJson pointee⟩,
        .inr ⟨_, rfl, Json.writtenOption_eq (fun c => .string c.name) checked⟩⟩
  | array element size =>
      ⟨_, rfl, ⟨_, rfl, writtenAs_toJson element⟩, .inr ⟨_, rfl, Json.writtenOption_eq .nat size⟩⟩
  | function ret params _ =>
      ⟨_, rfl, ⟨_, rfl, writtenAs_toJson ret⟩, ⟨_, rfl, _, rfl, allWrittenAs_toJsonAll params⟩, .inr ⟨_, rfl, rfl⟩⟩

theorem allWrittenAs_toJsonAll : ∀ ts : List CType, AllWrittenAs ts (toJsonAll ts)
  | [] => trivial
  | t :: ts => ⟨writtenAs_toJson t, allWrittenAs_toJsonAll ts⟩

end

/-! ### Reading types -/

/-- A signature is read once its parts are. -/
theorem signatureOfJson?_of_given {ret : CType} {params : List CType} {variadic : Bool}
    (hret : Given fields "ret" (fun v => ofJson? s v = some ret))
    (hparams : Given fields "params" (fun v => Json.list? (ofJson? s) v = some params))
    (hvariadic : Allowed fields "variadic" (variadic = false) (· = .bool variadic)) :
    signatureOfJson? s (.object fields) = some ⟨ret, params, variadic⟩ := by
  obtain ⟨r, hret, rret⟩ := hret.field?
  obtain ⟨ps, hparams, rparams⟩ := hparams.field?
  obtain ⟨b, hvariadic, rvariadic⟩ := hvariadic.withDefault? Json.bool? fun v hv => hv ▸ rfl
  obtain ⟨items, hitems, rparams⟩ := Option.bind_eq_some_iff.1 rparams
  rw [signatureOfJson?]
  simp only [Json.record?_object, List.mapM_cons, List.mapM_nil, hret, hparams, hvariadic, Option.bind_eq_bind,
    Option.bind_some, Option.pure_def, rret, hitems, rparams, rvariadic]

mutual

/-- **A type in range is read from every way to write it.** -/
theorem ofJson?_of_writtenAs (s : Json.Strictness) :
    ∀ (t : CType) (j : Json), t.InRange → t.WrittenAs j → ofJson? s j = some t
  | void, j, _, h => by
      rw [show j = .string "void" from h, ofJson?]
      rfl
  | scalar name arithmetic, j, _, h => by
      obtain ⟨fields, rfl, hname, harithmetic⟩ := h
      obtain ⟨n, hname, rname⟩ := hname.string
      obtain ⟨c, harithmetic, rarithmetic⟩ := harithmetic.required?
        (fun j => (j.name? s).bind ScalarClass.ofName?) (a := arithmetic)
        fun v hv => hv ▸ arithmetic.ofName?_name
      rw [ofJson?]
      simp only [Json.choice?, Json.content?_object, List.mapM_cons, List.mapM_nil, hname, harithmetic,
        Option.bind_eq_bind, Option.bind_some, Option.pure_def, rname, rarithmetic]
  | record tag, j, _, h => by
      rw [show j = .object [("record", .string tag)] from h, ofJson?]
      rfl
  | pointer pointee checked, j, hrange, h => by
      obtain ⟨fields, rfl, hpointee, hchecked⟩ := h
      obtain ⟨p, hpointee, wpointee⟩ := hpointee.field?
      obtain ⟨c, hchecked, rchecked⟩ := hchecked.optional? (fun j => (j.name? s).bind CheckedForm.ofName?) rfl
        fun c _ v hv => hv ▸ c.ofName?_name
      rw [ofJson?]
      simp only [Json.choice?, Json.content?_object, List.mapM_cons, List.mapM_nil, hpointee, hchecked,
        Option.bind_eq_bind, Option.bind_some, Option.pure_def, rchecked,
        ofJson?_of_writtenAs s pointee p.1 hrange wpointee]
  | array element size, j, hrange, h => by
      obtain ⟨fields, rfl, helement, hsize⟩ := h
      obtain ⟨e, helement, welement⟩ := helement.field?
      obtain ⟨n, hsize, rsize⟩ := hsize.nat hrange.2
      rw [ofJson?]
      simp only [Json.choice?, Json.content?_object, List.mapM_cons, List.mapM_nil, helement, hsize,
        Option.bind_eq_bind, Option.bind_some, Option.pure_def, Json.longWord?, rsize,
        ofJson?_of_writtenAs s element e.1 hrange.1 welement]
  | function ret params variadic, j, hrange, h => by
      obtain ⟨fields, rfl, hret, hparams, hvariadic⟩ := h
      have hsignature : signatureOfJson? s (.object fields) = some ⟨ret, params, variadic⟩ := by
        refine signatureOfJson?_of_given (hret.imp fun v => ofJson?_of_writtenAs s ret v hrange.1)
          (hparams.imp ?_) hvariadic
        rintro v ⟨items, rfl, hitems⟩
        rw [Json.list?_array]
        exact mapM_of_allWrittenAs s params items hrange.2 hitems
      rw [ofJson?]
      simp only [Json.choice?, hsignature, Option.map_some, ofSignature]

theorem mapM_of_allWrittenAs (s : Json.Strictness) :
    ∀ (ts : List CType) (vs : List Json), AllInRange ts → AllWrittenAs ts vs → vs.mapM (ofJson? s) = some ts
  | [], [], _, _ => rfl
  | t :: ts, v :: vs, hrange, h => by
      rw [List.mapM_cons, ofJson?_of_writtenAs s t v hrange.1 h.1, Option.bind_eq_bind, Option.bind_some,
        mapM_of_allWrittenAs s ts vs hrange.2 h.2]
      rfl
  | [], _ :: _, _, h => h.elim
  | _ :: _, [], _, h => h.elim

end

mutual

/-- **Whatever is read as a type is in range.** -/
theorem inRange_of_ofJson? (s : Json.Strictness) (j : Json) (t : CType) (h : ofJson? s j = some t) : t.InRange := by
  rw [ofJson?] at h
  split at h
  · rw [← Option.some.inj h]
    trivial
  · split at h
    · rw [← Option.some.inj h]
      trivial
    · exact nomatch h
  · split at h
    · obtain ⟨name, -, h⟩ := Option.bind_eq_some_iff.1 h
      obtain ⟨arithmetic, -, h⟩ := Option.bind_eq_some_iff.1 h
      rw [← Option.some.inj h]
      trivial
    · exact nomatch h
  · obtain ⟨tag, -, rfl⟩ := Option.map_eq_some_iff.1 h
    trivial
  · next v _ =>
      split at h
      · next pointee checked _ =>
          obtain ⟨t, ht, h⟩ := Option.bind_eq_some_iff.1 h
          obtain ⟨c, -, h⟩ := Option.bind_eq_some_iff.1 h
          rw [← Option.some.inj h]
          exact inRange_of_ofJson? s pointee.1 t ht
      · exact nomatch h
  · next v _ =>
      split at h
      · next element size _ =>
          obtain ⟨t, ht, h⟩ := Option.bind_eq_some_iff.1 h
          obtain ⟨n, hn, h⟩ := Option.bind_eq_some_iff.1 h
          rw [← Option.some.inj h]
          exact ⟨inRange_of_ofJson? s element.1 t ht, Json.lt_of_optional? hn⟩
      · exact nomatch h
  · next v _ =>
      obtain ⟨sig, hsig, rfl⟩ := Option.map_eq_some_iff.1 h
      exact inRange_of_signatureOfJson? s v.1 sig hsig
  · exact nomatch h
termination_by sizeOf j
decreasing_by
  all_goals first
    | exact Json.sizeOf_part_lt _
    | exact Json.sizeOf_inner_lt _

theorem inRange_of_signatureOfJson? (s : Json.Strictness) (j : Json) (sig : Signature)
    (h : signatureOfJson? s j = some sig) : (ofSignature sig).InRange := by
  rw [signatureOfJson?] at h
  split at h
  · next ret params variadic _ =>
      obtain ⟨t, ht, h⟩ := Option.bind_eq_some_iff.1 h
      obtain ⟨items, -, h⟩ := Option.bind_eq_some_iff.1 h
      obtain ⟨ts, hts, h⟩ := Option.bind_eq_some_iff.1 h
      obtain ⟨b, -, h⟩ := Option.bind_eq_some_iff.1 h
      rw [← Option.some.inj h]
      refine ⟨inRange_of_ofJson? s ret.1 t ht, allInRange_iff.2 fun t' ht' => ?_⟩
      obtain ⟨p, -, hp⟩ := Json.exists_of_mapM hts ht'
      exact inRange_of_ofJson? s p.1 t' hp
  · exact nomatch h
termination_by sizeOf j
decreasing_by
  all_goals first
    | exact Json.sizeOf_part_lt _
    | exact Json.sizeOf_inner_lt _

end

end CType

namespace Signature

variable {sig : Signature} {j : Json} {s : Json.Strictness}

def InRange (sig : Signature) : Prop := (CType.ofSignature sig).InRange

/-- A way to write a signature, which is the content of the type of a function. -/
def WrittenAs (sig : Signature) (j : Json) : Prop := (CType.ofSignature sig).WrittenAs (.object [("function", j)])

theorem writtenAs_toJson (sig : Signature) : sig.WrittenAs sig.toJson := by
  have hlist : ∀ ts : List CType, CType.toJsonAll ts = ts.map CType.toJson := by
    intro ts
    induction ts with
    | nil => rfl
    | cons t ts ih => rw [CType.toJsonAll, ih, List.map_cons]
  have htype := CType.writtenAs_toJson (CType.ofSignature sig)
  rw [CType.ofSignature, CType.toJson, hlist] at htype
  exact htype

theorem ofJson?_null : ofJson? s .null = none := by
  unfold ofJson?
  rw [CType.signatureOfJson?]
  rfl

theorem ofJson?_of_writtenAs (hsig : sig.InRange) (h : sig.WrittenAs j) : ofJson? s j = some sig := by
  have htype := CType.ofJson?_of_writtenAs s _ _ hsig h
  rw [CType.ofJson?] at htype
  simp only [Json.choice?] at htype
  obtain ⟨⟨ret, params, variadic⟩, hread, heq⟩ := Option.map_eq_some_iff.1 htype
  obtain ⟨rfl, rfl, rfl⟩ := CType.function.inj heq
  exact hread

theorem inRange_of_ofJson? (h : ofJson? s j = some sig) : sig.InRange :=
  CType.inRange_of_signatureOfJson? s j sig h

end Signature

/-! ### Lengths -/

namespace BoundsExpr

/-- The numbers in a length have 64 bits. -/
def InRange : BoundsExpr → Prop
  | literal n => n < Json.longWordLimit
  | binary _ lhs rhs => lhs.InRange ∧ rhs.InRange
  | sizeOf _ | stringLiteral _ | global _ | param _ | «local» _ | field .. => True

/-- A way to write a length. -/
def WrittenAs : BoundsExpr → Json → Prop
  | field record name, j =>
    ∃ fields, j = .object [("field", .object fields)] ∧ Given fields "record" (· = .string record) ∧
      Given fields "name" (· = .string name)
  | binary op lhs rhs, j =>
    ∃ fields, j = .object [("binary", .object fields)] ∧ Given fields "op" (· = .string op) ∧
      Given fields "lhs" (fun v => lhs.WrittenAs v) ∧ Given fields "rhs" (fun v => rhs.WrittenAs v)
  | e, j => j = e.toJson

theorem writtenAs_toJson : ∀ e : BoundsExpr, e.WrittenAs e.toJson
  | field .. => ⟨_, rfl, ⟨_, rfl, rfl⟩, ⟨_, rfl, rfl⟩⟩
  | binary _ lhs rhs =>
      ⟨_, rfl, ⟨_, rfl, rfl⟩, ⟨_, rfl, writtenAs_toJson lhs⟩, ⟨_, rfl, writtenAs_toJson rhs⟩⟩
  | literal _ | sizeOf _ | stringLiteral _ | global _ | param _ | «local» _ => rfl

theorem ofJson?_null (s : Json.Strictness) : ofJson? s .null = none := by
  rw [ofJson?]
  rfl

/-- **A length in range is read from every way to write it.** -/
theorem ofJson?_of_writtenAs (s : Json.Strictness) :
    ∀ (e : BoundsExpr) (j : Json), e.InRange → e.WrittenAs j → ofJson? s j = some e
  | literal n, j, hrange, h => by
      rw [show j = .object [("literal", .nat n)] from h, ofJson?]
      simp only [Json.choice?, Json.longWord?, Json.natBelow?_of_lt hrange, Option.map_some]
  | field record name, j, _, h => by
      obtain ⟨fields, rfl, hrecord, hname⟩ := h
      obtain ⟨r, hrecord, rrecord⟩ := hrecord.string
      obtain ⟨n, hname, rname⟩ := hname.string
      rw [ofJson?]
      simp only [Json.choice?, Json.content?_object, List.mapM_cons, List.mapM_nil, hrecord, hname,
        Option.bind_eq_bind, Option.bind_some, Option.pure_def, rrecord, rname]
  | binary op lhs rhs, j, hrange, h => by
      obtain ⟨fields, rfl, hop, hlhs, hrhs⟩ := h
      obtain ⟨o, hop, rop⟩ := hop.string
      obtain ⟨l, hlhs, wlhs⟩ := hlhs.field?
      obtain ⟨r, hrhs, wrhs⟩ := hrhs.field?
      rw [ofJson?]
      simp only [Json.choice?, Json.content?_object, List.mapM_cons, List.mapM_nil, hop, hlhs, hrhs,
        Option.bind_eq_bind, Option.bind_some, Option.pure_def, rop,
        ofJson?_of_writtenAs s lhs l.1 hrange.1 wlhs, ofJson?_of_writtenAs s rhs r.1 hrange.2 wrhs]
  | sizeOf _, j, _, h | stringLiteral _, j, _, h | global _, j, _, h | param _, j, _, h | «local» _, j, _, h => by
      rw [show j = _ from h, ofJson?]
      rfl

/-- **Whatever is read as a length is in range.** -/
theorem inRange_of_ofJson? (s : Json.Strictness) (j : Json) (e : BoundsExpr) (h : ofJson? s j = some e) :
    e.InRange := by
  rw [ofJson?] at h
  split at h
  · obtain ⟨n, hn, rfl⟩ := Option.map_eq_some_iff.1 h
    exact Json.lt_of_natBelow? hn
  iterate 5
    · obtain ⟨_, -, rfl⟩ := Option.map_eq_some_iff.1 h
      trivial
  · split at h
    · obtain ⟨record, -, h⟩ := Option.bind_eq_some_iff.1 h
      obtain ⟨name, -, h⟩ := Option.bind_eq_some_iff.1 h
      rw [← Option.some.inj h]
      trivial
    · cases h
  · split at h
    · next op lhs rhs _ =>
        obtain ⟨o, -, h⟩ := Option.bind_eq_some_iff.1 h
        obtain ⟨l, hl, h⟩ := Option.bind_eq_some_iff.1 h
        obtain ⟨r, hr, h⟩ := Option.bind_eq_some_iff.1 h
        rw [← Option.some.inj h]
        exact ⟨inRange_of_ofJson? s lhs.1 l hl, inRange_of_ofJson? s rhs.1 r hr⟩
    · cases h
  · cases h
termination_by SizeOf.sizeOf j
decreasing_by
  all_goals exact Json.sizeOf_inner_lt _

end BoundsExpr

end PointerKinds
