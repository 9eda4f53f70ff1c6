/-
Recordings survive being written and read.

An event names its kind in a field among its own, and a declaration does the same with what it
declares, while types and lengths are choices with a content.  No name is used for two things in
one object, so each part is found under its own name wherever it stands, and what stands under
other names is never looked at.

A recording can be written in many ways, and is read from each of them: its fields in any order,
among others that are not known, and without those that say the same as their absence.  The way
the form writes it is one of these.  The numbers of whatever is read are in range, so what is read
can be written and read again.
-/
import PointerKinds.Form.Recording
import PointerKinds.Proofs.Form.Types

namespace PointerKinds

open Json (Given Allowed WrittenOption WrittenList)

/-! ### Declarations -/

namespace ParamDecl

variable {p : ParamDecl} {j : Json}

def InRange (p : ParamDecl) : Prop := p.location.InRange

/-- A way to write a parameter. -/
def WrittenAs (p : ParamDecl) (j : Json) : Prop :=
  ∃ fields, j = .object fields ∧ Given fields "name" (· = .string p.name) ∧
    Given fields "location" p.location.WrittenAs

theorem writtenAs_toJson (p : ParamDecl) : p.WrittenAs p.toJson :=
  ⟨_, rfl, ⟨_, rfl, rfl⟩, ⟨_, rfl, p.location.writtenAs_toJson⟩⟩

theorem ofJson?_of_writtenAs (hp : p.InRange) (h : p.WrittenAs j) : ofJson? j = some p := by
  obtain ⟨fields, rfl, hname, hlocation⟩ := h
  obtain ⟨name, hname, rname⟩ := hname.string
  obtain ⟨location, hlocation, rlocation⟩ := hlocation.required? Location.ofJson? fun v =>
    Location.ofJson?_of_writtenAs hp
  simp only [ofJson?, Json.record?_object, List.mapM_cons, List.mapM_nil, hname, hlocation, Option.bind_eq_bind,
    Option.bind_some, Option.pure_def, rname, rlocation]

theorem inRange_of_ofJson? (h : ofJson? j = some p) : p.InRange := by
  unfold ofJson? at h
  split at h
  · obtain ⟨name, -, h⟩ := Option.bind_eq_some_iff.1 h
    obtain ⟨location, hlocation, h⟩ := Option.bind_eq_some_iff.1 h
    rw [← Option.some.inj h]
    exact Json.of_required? (P := Location.InRange) hlocation fun _ => Location.inRange_of_ofJson?
  · exact nomatch h

end ParamDecl

namespace DeclKind

variable {k : DeclKind} {fields : List (String × Json)} {j : Json}

/-- Only the parameters of a function have numbers. -/
def InRange : DeclKind → Prop
  | function _ _ params => ∀ p ∈ params, p.InRange
  | global | «local» | field _ => True

/-- A way to write what is declared among the fields of a declaration. -/
def WrittenAmong : DeclKind → List (String × Json) → Prop
  | global, fields => Given fields "kind" (· = .string "global")
  | «local», fields => Given fields "kind" (· = .string "local")
  | field record, fields => Given fields "kind" (· = .string "field") ∧ Given fields "record" (· = .string record)
  | function isDefinition isStatic params, fields =>
    Given fields "kind" (· = .string "function") ∧ Given fields "is_definition" (· = .bool isDefinition) ∧
      Allowed fields "is_static" (isStatic = false) (· = .bool isStatic) ∧
      Allowed fields "params" (params = []) (WrittenList ParamDecl.WrittenAs params)

theorem ofFields?_of_writtenAmong (hk : k.InRange) (h : k.WrittenAmong fields) :
    ofFields? (.object fields) = some k := by
  have hname : ∀ {name : String}, Given fields "kind" (· = .string name) →
      ∃ part, (Json.object fields).field? "kind" = some part ∧ Json.required? nameOf? part = some name :=
    fun h => h.required? nameOf? fun v hv => hv ▸ rfl
  unfold ofFields?
  cases k with
  | global | «local» =>
      obtain ⟨kind, hkind, rkind⟩ := hname h
      simp only [hkind, Option.bind_eq_bind, Option.bind_some, rkind, Option.pure_def]
  | field record =>
      obtain ⟨hkind, hrecord⟩ := h
      obtain ⟨kind, hkind, rkind⟩ := hname hkind
      obtain ⟨r, hrecord, rrecord⟩ := hrecord.string
      simp only [hkind, hrecord, Option.bind_eq_bind, Option.bind_some, rkind, rrecord, Option.pure_def]
  | function isDefinition isStatic params =>
      obtain ⟨hkind, hdefinition, hstatic, hparams⟩ := h
      obtain ⟨kind, hkind, rkind⟩ := hname hkind
      obtain ⟨d, hdefinition, rdefinition⟩ := hdefinition.bool
      obtain ⟨s, hstatic, rstatic⟩ := hstatic.withDefault? Json.bool? fun v hv => hv ▸ rfl
      obtain ⟨ps, hparams, rparams⟩ := hparams.withDefault? (Json.list? ParamDecl.ofJson?) fun v hv =>
        Json.list?_of_writtenList hv fun p hp v => ParamDecl.ofJson?_of_writtenAs (hk p hp)
      simp only [hkind, hdefinition, hstatic, hparams, Option.bind_eq_bind, Option.bind_some, rkind, rdefinition,
        rstatic, rparams, Option.pure_def]

theorem inRange_of_ofFields? (h : ofFields? j = some k) : k.InRange := by
  unfold ofFields? at h
  obtain ⟨part, -, h⟩ := Option.bind_eq_some_iff.1 h
  obtain ⟨name, -, h⟩ := Option.bind_eq_some_iff.1 h
  split at h
  · rw [← Option.some.inj h]
    trivial
  · rw [← Option.some.inj h]
    trivial
  · obtain ⟨part, -, h⟩ := Option.bind_eq_some_iff.1 h
    obtain ⟨record, -, h⟩ := Option.bind_eq_some_iff.1 h
    rw [← Option.some.inj h]
    trivial
  · obtain ⟨_, -, h⟩ := Option.bind_eq_some_iff.1 h
    obtain ⟨isDefinition, -, h⟩ := Option.bind_eq_some_iff.1 h
    obtain ⟨_, -, h⟩ := Option.bind_eq_some_iff.1 h
    obtain ⟨isStatic, -, h⟩ := Option.bind_eq_some_iff.1 h
    obtain ⟨_, -, h⟩ := Option.bind_eq_some_iff.1 h
    obtain ⟨params, hparams, h⟩ := Option.bind_eq_some_iff.1 h
    rw [← Option.some.inj h]
    refine Json.of_withDefault? (P := fun ps => ∀ p ∈ ps, ParamDecl.InRange p) hparams
      (fun p hp => absurd hp List.not_mem_nil) fun v hv => ?_
    exact Json.of_list? hv fun _ _ => ParamDecl.inRange_of_ofJson?
  · exact nomatch h

end DeclKind

namespace Decl

variable {d : Decl} {j : Json} {s : Json.Strictness}

structure InRange (d : Decl) : Prop where
  location : d.location.InRange
  type : d.type.InRange
  kind : d.kind.InRange

/-- A way to write a declaration. -/
def WrittenAs (d : Decl) (j : Json) : Prop :=
  ∃ fields, j = .object fields ∧ Given fields "name" (· = .string d.name) ∧
    Given fields "location" d.location.WrittenAs ∧ Given fields "ty" d.type.WrittenAs ∧ d.kind.WrittenAmong fields

theorem writtenAs_toJson (d : Decl) : d.WrittenAs d.toJson := by
  obtain ⟨name, location, type, kind⟩ := d
  have hlocation := location.writtenAs_toJson
  have htype := type.writtenAs_toJson
  cases kind with
  | global | «local» =>
      exact ⟨_, rfl, ⟨_, rfl, rfl⟩, ⟨_, rfl, hlocation⟩, ⟨_, rfl, htype⟩, ⟨_, rfl, rfl⟩⟩
  | field record =>
      exact ⟨_, rfl, ⟨_, rfl, rfl⟩, ⟨_, rfl, hlocation⟩, ⟨_, rfl, htype⟩, ⟨_, rfl, rfl⟩, ⟨_, rfl, rfl⟩⟩
  | function isDefinition isStatic params =>
      have hparams : WrittenList ParamDecl.WrittenAs params (.list ParamDecl.toJson params) :=
        Json.writtenList_list fun p _ => p.writtenAs_toJson
      exact ⟨_, rfl, ⟨_, rfl, rfl⟩, ⟨_, rfl, hlocation⟩, ⟨_, rfl, htype⟩, ⟨_, rfl, rfl⟩, ⟨_, rfl, rfl⟩,
        .inr ⟨_, rfl, rfl⟩, .inr ⟨_, rfl, hparams⟩⟩

theorem ofJson?_of_writtenAs (hd : d.InRange) (h : d.WrittenAs j) : ofJson? s j = some d := by
  obtain ⟨fields, rfl, hname, hlocation, htype, hkind⟩ := h
  obtain ⟨name, hname, rname⟩ := hname.string
  obtain ⟨location, hlocation, rlocation⟩ := hlocation.required? Location.ofJson? fun v =>
    Location.ofJson?_of_writtenAs hd.location
  obtain ⟨type, htype, rtype⟩ := htype.required? (CType.ofJson? s) fun v =>
    CType.ofJson?_of_writtenAs s d.type v hd.type
  have rkind := DeclKind.ofFields?_of_writtenAmong hd.kind hkind
  simp only [ofJson?, Json.isObject, if_true, hname, hlocation, htype, Option.bind_eq_bind, Option.bind_some,
    Option.pure_def, rname, rlocation, rtype, rkind]

theorem inRange_of_ofJson? (h : ofJson? s j = some d) : d.InRange := by
  unfold ofJson? at h
  split at h
  · obtain ⟨_, -, h⟩ := Option.bind_eq_some_iff.1 h
    obtain ⟨name, -, h⟩ := Option.bind_eq_some_iff.1 h
    obtain ⟨_, -, h⟩ := Option.bind_eq_some_iff.1 h
    obtain ⟨location, hlocation, h⟩ := Option.bind_eq_some_iff.1 h
    obtain ⟨_, -, h⟩ := Option.bind_eq_some_iff.1 h
    obtain ⟨type, htype, h⟩ := Option.bind_eq_some_iff.1 h
    obtain ⟨kind, hkind, h⟩ := Option.bind_eq_some_iff.1 h
    rw [← Option.some.inj h]
    exact {
      location := Json.of_required? (P := Location.InRange) hlocation fun _ => Location.inRange_of_ofJson?
      type := Json.of_required? (P := CType.InRange) htype fun v => CType.inRange_of_ofJson? s v.1 type
      kind := DeclKind.inRange_of_ofFields? hkind }
  · exact nomatch h

end Decl

/-! ### Events -/

namespace Event

variable {e : Event} {fields : List (String × Json)} {j : Json}

/-- Nodes have 64 bits, and so on for the parts of an event. -/
def InRange : Event → Prop
  | declare node d => node < Json.longWordLimit ∧ d.InRange
  | assign target source location =>
    target < Json.longWordLimit ∧ source < Json.longWordLimit ∧ ∀ l ∈ location, l.InRange
  | cast target targetType source sourceType location =>
    target < Json.longWordLimit ∧ targetType.InRange ∧ source < Json.longWordLimit ∧ sourceType.InRange ∧
      ∀ l ∈ location, l.InRange
  | call _ signature args result allocSize location =>
    (∀ sig ∈ signature, sig.InRange) ∧ (∀ arg ∈ args, ∀ node ∈ arg, node < Json.longWordLimit) ∧
      (∀ node ∈ result, node < Json.longWordLimit) ∧ (∀ size ∈ allocSize, size.InRange) ∧ location.InRange
  | wild node why => node < Json.longWordLimit ∧ ∀ l ∈ why.location, l.InRange
  | bounds node e => node < Json.longWordLimit ∧ e.InRange

/-- A way to write an event among the fields of an object. -/
def WrittenAmong : Event → List (String × Json) → Prop
  | declare node d, fields =>
    Given fields "event" (· = .string "declare") ∧ Given fields "node" (· = .nat node) ∧
      Given fields "decl" d.WrittenAs
  | assign target source location, fields =>
    Given fields "event" (· = .string "assign") ∧ Given fields "lhs" (· = .nat target) ∧
      Given fields "rhs" (· = .nat source) ∧
      Allowed fields "location" (location = none) (WrittenOption Location.WrittenAs location)
  | cast target targetType source sourceType location, fields =>
    Given fields "event" (· = .string "cast") ∧ Given fields "dst" (· = .nat target) ∧
      Given fields "dst_type" targetType.WrittenAs ∧ Given fields "src" (· = .nat source) ∧
      Given fields "src_type" sourceType.WrittenAs ∧
      Allowed fields "location" (location = none) (WrittenOption Location.WrittenAs location)
  | call callee signature args result allocSize location, fields =>
    Given fields "event" (· = .string "call") ∧ Given fields "callee" (· = .string callee) ∧
      Allowed fields "signature" (signature = none) (WrittenOption Signature.WrittenAs signature) ∧
      Allowed fields "args" (args = []) (WrittenList (WrittenOption fun n v => v = .nat n) args) ∧
      Allowed fields "result" (result = none) (WrittenOption (fun n v => v = .nat n) result) ∧
      Allowed fields "alloc_size" (allocSize = none) (WrittenOption BoundsExpr.WrittenAs allocSize) ∧
      Given fields "location" location.WrittenAs
  | wild node why, fields =>
    Given fields "event" (· = .string "wild") ∧ Given fields "node" (· = .nat node) ∧
      Given fields "reason" (· = .string why.reason) ∧
      Allowed fields "location" (why.location = none) (WrittenOption Location.WrittenAs why.location)
  | bounds node e, fields =>
    Given fields "event" (· = .string "bounds") ∧ Given fields "node" (· = .nat node) ∧
      Given fields "expr" e.WrittenAs

/-- A way to write an event. -/
def WrittenAs (e : Event) (j : Json) : Prop := ∃ fields, j = .object fields ∧ e.WrittenAmong fields

theorem writtenAs_toJson (e : Event) : e.WrittenAs e.toJson := by
  have hlocation : ∀ location : Option Location,
      WrittenOption Location.WrittenAs location (.option Location.toJson location) :=
    Json.writtenOption_option Location.writtenAs_toJson
  cases e with
  | declare node d => exact ⟨_, rfl, ⟨_, rfl, rfl⟩, ⟨_, rfl, rfl⟩, ⟨_, rfl, d.writtenAs_toJson⟩⟩
  | assign target source location =>
      exact ⟨_, rfl, ⟨_, rfl, rfl⟩, ⟨_, rfl, rfl⟩, ⟨_, rfl, rfl⟩, .inr ⟨_, rfl, hlocation location⟩⟩
  | cast target targetType source sourceType location =>
      exact ⟨_, rfl, ⟨_, rfl, rfl⟩, ⟨_, rfl, rfl⟩, ⟨_, rfl, targetType.writtenAs_toJson⟩, ⟨_, rfl, rfl⟩,
        ⟨_, rfl, sourceType.writtenAs_toJson⟩, .inr ⟨_, rfl, hlocation location⟩⟩
  | call callee signature args result allocSize location =>
      have hsignature := Json.writtenOption_option Signature.writtenAs_toJson signature
      have hargs := Json.writtenList_list (l := args) fun arg _ => Json.writtenOption_eq Json.nat arg
      have hresult := Json.writtenOption_eq Json.nat result
      have hsize := Json.writtenOption_option BoundsExpr.writtenAs_toJson allocSize
      exact ⟨_, rfl, ⟨_, rfl, rfl⟩, ⟨_, rfl, rfl⟩, .inr ⟨_, rfl, hsignature⟩, .inr ⟨_, rfl, hargs⟩,
        .inr ⟨_, rfl, hresult⟩, .inr ⟨_, rfl, hsize⟩, ⟨_, rfl, location.writtenAs_toJson⟩⟩
  | wild node why =>
      exact ⟨_, rfl, ⟨_, rfl, rfl⟩, ⟨_, rfl, rfl⟩, ⟨_, rfl, rfl⟩, .inr ⟨_, rfl, hlocation why.location⟩⟩
  | bounds node e => exact ⟨_, rfl, ⟨_, rfl, rfl⟩, ⟨_, rfl, rfl⟩, ⟨_, rfl, e.writtenAs_toJson⟩⟩

/-- An event that names its kind is read by the fields of that kind. -/
theorem ofJson?_of_given {name : String} (h : Given fields "event" (· = .string name)) :
    ofJson? (.object fields) = ofFields? (.object fields) name := by
  obtain ⟨part, hpart, rpart⟩ := h.string
  simp only [ofJson?, hpart, Option.bind_eq_bind, Option.bind_some, rpart]

theorem optional?_location {location : Option Location} (hrange : ∀ l ∈ location, l.InRange)
    (h : Allowed fields "location" (location = none) (WrittenOption Location.WrittenAs location)) :
    ∃ part, (Json.object fields).field? "location" = some part ∧
      Json.optional? Location.ofJson? part = some location :=
  h.optional? Location.ofJson? rfl fun l hl _ => Location.ofJson?_of_writtenAs (hrange l hl)

/-- **An event in range is read from every way to write it.** -/
theorem ofJson?_of_writtenAs (he : e.InRange) (h : e.WrittenAs j) : ofJson? j = some e := by
  obtain ⟨fields, rfl, h⟩ := h
  cases e with
  | declare node d =>
      obtain ⟨hname, hnode, hdecl⟩ := h
      obtain ⟨n, hnode, rnode⟩ := hnode.nat he.1
      obtain ⟨d', hdecl, rdecl⟩ := hdecl.required? (Decl.ofJson? .lenient) fun v => Decl.ofJson?_of_writtenAs he.2
      rw [ofJson?_of_given hname]
      simp only [ofFields?, Json.record?_object, List.mapM_cons, List.mapM_nil, hnode, hdecl, Option.bind_eq_bind,
        Option.bind_some, Option.pure_def, Json.longWord?, rnode, rdecl]
  | assign target source location =>
      obtain ⟨hname, htarget, hsource, hlocation⟩ := h
      obtain ⟨t, htarget, rtarget⟩ := htarget.nat he.1
      obtain ⟨s, hsource, rsource⟩ := hsource.nat he.2.1
      obtain ⟨l, hlocation, rlocation⟩ := optional?_location he.2.2 hlocation
      rw [ofJson?_of_given hname]
      simp only [ofFields?, Json.record?_object, List.mapM_cons, List.mapM_nil, htarget, hsource, hlocation,
        Option.bind_eq_bind, Option.bind_some, Option.pure_def, Json.longWord?, rtarget, rsource, rlocation]
  | cast target targetType source sourceType location =>
      obtain ⟨hname, htarget, htargetType, hsource, hsourceType, hlocation⟩ := h
      obtain ⟨t, htarget, rtarget⟩ := htarget.nat he.1
      obtain ⟨tt, htargetType, rtargetType⟩ := htargetType.required? (CType.ofJson? .lenient) fun v =>
        CType.ofJson?_of_writtenAs .lenient targetType v he.2.1
      obtain ⟨s, hsource, rsource⟩ := hsource.nat he.2.2.1
      obtain ⟨st, hsourceType, rsourceType⟩ := hsourceType.required? (CType.ofJson? .lenient) fun v =>
        CType.ofJson?_of_writtenAs .lenient sourceType v he.2.2.2.1
      obtain ⟨l, hlocation, rlocation⟩ := optional?_location he.2.2.2.2 hlocation
      rw [ofJson?_of_given hname]
      simp only [ofFields?, Json.record?_object, List.mapM_cons, List.mapM_nil, htarget, htargetType, hsource,
        hsourceType, hlocation, Option.bind_eq_bind, Option.bind_some, Option.pure_def, Json.longWord?, rtarget,
        rtargetType, rsource, rsourceType, rlocation]
  | call callee signature args result allocSize location =>
      obtain ⟨hname, hcallee, hsignature, hargs, hresult, hsize, hlocation⟩ := h
      obtain ⟨c, hcallee, rcallee⟩ := hcallee.string
      obtain ⟨g, hsignature, rsignature⟩ := hsignature.optional? (Signature.ofJson? .lenient) Signature.ofJson?_null
        fun sig hsig _ => Signature.ofJson?_of_writtenAs (he.1 sig hsig)
      obtain ⟨as, hargs, rargs⟩ := hargs.withDefault?
        (Json.list? (Json.nullable? (Json.natBelow? Json.longWordLimit))) fun v hv =>
        Json.list?_of_writtenList hv fun arg harg v hv => Json.nullable?_of_writtenOption hv _ rfl
          fun n hn _ hv => hv ▸ Json.natBelow?_of_lt (he.2.1 arg harg n hn)
      obtain ⟨r, hresult, rresult⟩ := hresult.nat he.2.2.1
      obtain ⟨z, hsize, rsize⟩ := hsize.optional? (BoundsExpr.ofJson? .lenient) (BoundsExpr.ofJson?_null _)
        fun size hsize v => BoundsExpr.ofJson?_of_writtenAs .lenient size v (he.2.2.2.1 size hsize)
      obtain ⟨l, hlocation, rlocation⟩ := hlocation.required? Location.ofJson? fun v =>
        Location.ofJson?_of_writtenAs he.2.2.2.2
      rw [ofJson?_of_given hname]
      simp only [ofFields?, Json.record?_object, List.mapM_cons, List.mapM_nil, hcallee, hsignature, hargs, hresult,
        hsize, hlocation, Option.bind_eq_bind, Option.bind_some, Option.pure_def, Json.longWord?, rcallee,
        rsignature, rargs, rresult, rsize, rlocation]
  | wild node why =>
      obtain ⟨hname, hnode, hreason, hlocation⟩ := h
      obtain ⟨n, hnode, rnode⟩ := hnode.nat he.1
      obtain ⟨r, hreason, rreason⟩ := hreason.string
      obtain ⟨l, hlocation, rlocation⟩ := optional?_location he.2 hlocation
      rw [ofJson?_of_given hname]
      simp only [ofFields?, Json.record?_object, List.mapM_cons, List.mapM_nil, hnode, hreason, hlocation,
        Option.bind_eq_bind, Option.bind_some, Option.pure_def, Json.longWord?, rnode, rreason, rlocation]
  | bounds node e =>
      obtain ⟨hname, hnode, hexpr⟩ := h
      obtain ⟨n, hnode, rnode⟩ := hnode.nat he.1
      obtain ⟨x, hexpr, rexpr⟩ := hexpr.required? (BoundsExpr.ofJson? .lenient) fun v =>
        BoundsExpr.ofJson?_of_writtenAs .lenient e v he.2
      rw [ofJson?_of_given hname]
      simp only [ofFields?, Json.record?_object, List.mapM_cons, List.mapM_nil, hnode, hexpr, Option.bind_eq_bind,
        Option.bind_some, Option.pure_def, Json.longWord?, rnode, rexpr]

theorem inRange_of_ofFields? {name : String} (h : ofFields? j name = some e) : e.InRange := by
  unfold ofFields? at h
  split at h
  · split at h
    · obtain ⟨node, hnode, h⟩ := Option.bind_eq_some_iff.1 h
      obtain ⟨d, hd, h⟩ := Option.bind_eq_some_iff.1 h
      rw [← Option.some.inj h]
      exact ⟨Json.lt_of_required? hnode, Json.of_required? (P := Decl.InRange) hd fun _ => Decl.inRange_of_ofJson?⟩
    · exact nomatch h
  · split at h
    · obtain ⟨target, htarget, h⟩ := Option.bind_eq_some_iff.1 h
      obtain ⟨source, hsource, h⟩ := Option.bind_eq_some_iff.1 h
      obtain ⟨location, hlocation, h⟩ := Option.bind_eq_some_iff.1 h
      rw [← Option.some.inj h]
      exact ⟨Json.lt_of_required? htarget, Json.lt_of_required? hsource,
        Json.of_optional? hlocation fun _ _ => Location.inRange_of_ofJson?⟩
    · exact nomatch h
  · split at h
    · obtain ⟨target, htarget, h⟩ := Option.bind_eq_some_iff.1 h
      obtain ⟨targetType, htargetType, h⟩ := Option.bind_eq_some_iff.1 h
      obtain ⟨source, hsource, h⟩ := Option.bind_eq_some_iff.1 h
      obtain ⟨sourceType, hsourceType, h⟩ := Option.bind_eq_some_iff.1 h
      obtain ⟨location, hlocation, h⟩ := Option.bind_eq_some_iff.1 h
      rw [← Option.some.inj h]
      exact ⟨Json.lt_of_required? htarget,
        Json.of_required? (P := CType.InRange) htargetType fun v => CType.inRange_of_ofJson? .lenient v.1 _,
        Json.lt_of_required? hsource,
        Json.of_required? (P := CType.InRange) hsourceType fun v => CType.inRange_of_ofJson? .lenient v.1 _,
        Json.of_optional? hlocation fun _ _ => Location.inRange_of_ofJson?⟩
    · exact nomatch h
  · split at h
    · obtain ⟨callee, -, h⟩ := Option.bind_eq_some_iff.1 h
      obtain ⟨signature, hsignature, h⟩ := Option.bind_eq_some_iff.1 h
      obtain ⟨args, hargs, h⟩ := Option.bind_eq_some_iff.1 h
      obtain ⟨result, hresult, h⟩ := Option.bind_eq_some_iff.1 h
      obtain ⟨allocSize, hsize, h⟩ := Option.bind_eq_some_iff.1 h
      obtain ⟨location, hlocation, h⟩ := Option.bind_eq_some_iff.1 h
      rw [← Option.some.inj h]
      refine ⟨Json.of_optional? hsignature fun _ _ => Signature.inRange_of_ofJson?, ?_, Json.lt_of_optional? hresult,
        Json.of_optional? hsize fun v => BoundsExpr.inRange_of_ofJson? .lenient v.1,
        Json.of_required? (P := Location.InRange) hlocation fun _ => Location.inRange_of_ofJson?⟩
      refine Json.of_withDefault? (P := fun args => ∀ arg ∈ args, ∀ node ∈ arg, node < Json.longWordLimit) hargs
        (fun arg harg => absurd harg List.not_mem_nil) fun v hv => Json.of_list? hv fun w arg harg => ?_
      exact Json.of_nullable? (v := w.1) harg fun _ => Json.lt_of_natBelow?
    · exact nomatch h
  · split at h
    · obtain ⟨node, hnode, h⟩ := Option.bind_eq_some_iff.1 h
      obtain ⟨reason, -, h⟩ := Option.bind_eq_some_iff.1 h
      obtain ⟨location, hlocation, h⟩ := Option.bind_eq_some_iff.1 h
      rw [← Option.some.inj h]
      exact ⟨Json.lt_of_required? hnode, Json.of_optional? hlocation fun _ _ => Location.inRange_of_ofJson?⟩
    · exact nomatch h
  · split at h
    · obtain ⟨node, hnode, h⟩ := Option.bind_eq_some_iff.1 h
      obtain ⟨x, hx, h⟩ := Option.bind_eq_some_iff.1 h
      rw [← Option.some.inj h]
      exact ⟨Json.lt_of_required? hnode,
        Json.of_required? (P := BoundsExpr.InRange) hx fun v => BoundsExpr.inRange_of_ofJson? .lenient v.1 _⟩
    · exact nomatch h
  · exact nomatch h

/-- **Whatever is read as an event is in range**, in whichever way it is written. -/
theorem inRange_of_ofJson? (h : ofJson? j = some e) : e.InRange := by
  unfold ofJson? at h
  split at h
  · exact inRange_of_ofFields? h
  · obtain ⟨_, -, h⟩ := Option.bind_eq_some_iff.1 h
    obtain ⟨name, -, h⟩ := Option.bind_eq_some_iff.1 h
    exact inRange_of_ofFields? h
  · exact nomatch h

end Event

/-! ### Recordings -/

namespace RecordedUnit

variable {u : RecordedUnit} {j : Json}

def InRange (u : RecordedUnit) : Prop := ∀ e ∈ u.events, e.InRange

/-- A way to write a unit. -/
def WrittenAs (u : RecordedUnit) (j : Json) : Prop :=
  ∃ fields, j = .object fields ∧ Given fields "file" (· = .string u.file) ∧
    Allowed fields "events" (u.events = []) (WrittenList Event.WrittenAs u.events)

theorem writtenAs_toJson (u : RecordedUnit) : u.WrittenAs u.toJson :=
  ⟨_, rfl, ⟨_, rfl, rfl⟩, .inr ⟨_, rfl, Json.writtenList_list fun e _ => e.writtenAs_toJson⟩⟩

theorem ofJson?_of_writtenAs (hu : u.InRange) (h : u.WrittenAs j) : ofJsonWith? Event.ofJson? j = some u := by
  obtain ⟨fields, rfl, hfile, hevents⟩ := h
  obtain ⟨file, hfile, rfile⟩ := hfile.string
  obtain ⟨events, hevents, revents⟩ := hevents.withDefault? (Json.list? Event.ofJson?) fun v hv =>
    Json.list?_of_writtenList hv fun e he _ => Event.ofJson?_of_writtenAs (hu e he)
  simp only [ofJsonWith?, Json.record?_object, List.mapM_cons, List.mapM_nil, hfile, hevents, Option.bind_eq_bind,
    Option.bind_some, Option.pure_def, rfile, revents]

theorem inRange_of_ofJson? (h : ofJsonWith? Event.ofJson? j = some u) : u.InRange := by
  unfold ofJsonWith? at h
  split at h
  · obtain ⟨file, -, h⟩ := Option.bind_eq_some_iff.1 h
    obtain ⟨events, hevents, h⟩ := Option.bind_eq_some_iff.1 h
    rw [← Option.some.inj h]
    refine Json.of_withDefault? (P := fun events => ∀ e ∈ events, Event.InRange e) hevents
      (fun e he => absurd he List.not_mem_nil) fun v hv => ?_
    exact Json.of_list? hv fun _ _ => Event.inRange_of_ofJson?
  · exact nomatch h

end RecordedUnit

namespace Recording

variable {r : Recording} {j : Json}

/-- All numbers of a recording fit into the words that are there for them. -/
def InRange (r : Recording) : Prop := ∀ u ∈ r.units, u.InRange

/-- A way to write a recording: by name at every level, with the fields in any order, among others
that mean nothing, and without those that may be left out and say the same as nothing. -/
def WrittenAs (r : Recording) (j : Json) : Prop :=
  ∃ fields, j = .object fields ∧ Given fields "units" (WrittenList RecordedUnit.WrittenAs r.units)

theorem writtenAs_toJson (r : Recording) : r.WrittenAs r.toJson :=
  ⟨_, rfl, ⟨_, rfl, Json.writtenList_list fun u _ => u.writtenAs_toJson⟩⟩

theorem ofJson?_of_writtenAs (hr : r.InRange) (h : r.WrittenAs j) : ofJson? j = some r := by
  obtain ⟨fields, rfl, hunits⟩ := h
  obtain ⟨units, hunits, runits⟩ := hunits.required? (Json.list? (RecordedUnit.ofJsonWith? Event.ofJson?)) fun v hv =>
    Json.list?_of_writtenList hv fun u hu _ => RecordedUnit.ofJson?_of_writtenAs (hr u hu)
  simp only [ofJson?, ofJsonWith?, Json.record?_object, List.mapM_cons, List.mapM_nil, hunits, Option.bind_eq_bind,
    Option.bind_some, Option.pure_def, runits, Option.map_some]

theorem inRange_of_ofJson? (h : ofJson? j = some r) : r.InRange := by
  unfold ofJson? ofJsonWith? at h
  split at h
  · obtain ⟨units, hunits, rfl⟩ := Option.map_eq_some_iff.1 h
    refine Json.of_required? (P := fun units => ∀ u ∈ units, RecordedUnit.InRange u) hunits fun v hv => ?_
    exact Json.of_list? hv fun _ _ => RecordedUnit.inRange_of_ofJson?
  · exact nomatch h

/-- **Recordings survive a round trip.**  A recording is read from what it is written as exactly if
its numbers fit; what is read from any value can be written and read again, and is the same; and
where the numbers fit, a recording is read from every way to write it. -/
theorem survives_roundTrip :
    (∀ r : Recording, ofJson? r.toJson = some r ↔ r.InRange) ∧
    (∀ j : Json, (ofJson? j).bind (fun r => ofJson? r.toJson) = ofJson? j) ∧
    ∀ (r : Recording) (j : Json), r.InRange → r.WrittenAs j → ofJson? j = some r := by
  have hread : ∀ r : Recording, r.InRange → ofJson? r.toJson = some r := fun r hr =>
    ofJson?_of_writtenAs hr r.writtenAs_toJson
  refine ⟨fun r => ⟨inRange_of_ofJson?, hread r⟩, fun j => ?_, fun r j => ofJson?_of_writtenAs⟩
  cases h : ofJson? j with
  | none => rfl
  | some r => exact hread r (inRange_of_ofJson? h)

/-! ### A concrete recording -/

/-- A function is declared. -/
def oneFunction : Recording where
  units := [{
    file := "a.c"
    events := [.declare 0 {
      name := "f"
      location := ⟨"a.c", 1, 5, none⟩
      type := .function (.pointer .void none) [] false
      kind := .function true false [] }] }]

/-- The same, with the fields in another order, two that are not known and none of those that may be
left out. -/
def oneFunctionScrambled : Json :=
  .object [("version", .int 2), ("units", .array [.object [
    ("events", .array [.object [
      ("node", .nat 0),
      ("decl", .object [
        ("kind", .string "function"),
        ("is_definition", .bool true),
        ("ty", .object [("function", .object [
          ("params", .array []), ("ret", .object [("pointer", .object [("pointee", .string "void")])])])]),
        ("record", .null),
        ("location", .object [("col", .nat 5), ("line", .nat 1), ("file", .string "a.c")]),
        ("name", .string "f")]),
      ("event", .string "declare")]]),
    ("file", .string "a.c")]])]

theorem oneFunctionScrambled_read :
    (oneFunction.InRange ∧ oneFunction.WrittenAs oneFunctionScrambled) ∧
      ofJson? oneFunctionScrambled = some oneFunction := by
  have hrange : oneFunction.InRange := by
    have hlocation : (⟨"a.c", 1, 5, none⟩ : Location).InRange := ⟨by decide, by decide, fun c hc => nomatch hc⟩
    refine List.forall_mem_singleton.2 (List.forall_mem_singleton.2 ⟨by decide, hlocation, ?_, ?_⟩)
    · exact ⟨trivial, trivial⟩
    · exact fun p hp => absurd hp List.not_mem_nil
  have hwritten : oneFunction.WrittenAs oneFunctionScrambled := by
    refine ⟨_, rfl, _, rfl, _, rfl, .cons ⟨_, rfl, ⟨_, rfl, rfl⟩, .inr ⟨_, rfl, _, rfl, .cons ?_ .nil⟩⟩ .nil⟩
    refine ⟨_, rfl, ⟨_, rfl, rfl⟩, ⟨_, rfl, rfl⟩, ⟨_, rfl, _, rfl, ⟨_, rfl, rfl⟩, ⟨_, rfl, ?_⟩, ⟨_, rfl, ?_⟩, ?_⟩⟩
    · exact ⟨_, rfl, ⟨_, rfl, rfl⟩, ⟨_, rfl, rfl⟩, ⟨_, rfl, rfl⟩, .inl ⟨rfl, rfl⟩⟩
    · exact ⟨_, rfl, ⟨_, rfl, _, rfl, ⟨_, rfl, rfl⟩, .inl ⟨rfl, rfl⟩⟩, ⟨_, rfl, _, rfl, trivial⟩, .inl ⟨rfl, rfl⟩⟩
    · exact ⟨⟨_, rfl, rfl⟩, ⟨_, rfl, rfl⟩, .inl ⟨rfl, rfl⟩, .inl ⟨rfl, rfl⟩⟩
  exact ⟨⟨hrange, hwritten⟩, survives_roundTrip.2.2 oneFunction oneFunctionScrambled hrange hwritten⟩

end Recording

end PointerKinds
