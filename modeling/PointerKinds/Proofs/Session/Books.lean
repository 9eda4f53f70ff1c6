/-
Every number that a program keeps means something.

A program knows constraints and variables by number, in the tables of its store and in its own.
A constraint is entered in them when it was created, and a variable when it was declared, and
neither is ever given up.  So the books are in order: what they are about only grows while
files are visited and when the program is linked, and solving and editing move the numbers of
constraints between the tables but create and destroy nothing.

For the same reason there is enough room in between if there is enough in the end.
-/
import PointerKinds.Proofs.Session.Placement
import PointerKinds.Proofs.Session.Requests

namespace PointerKinds

/-! ### What is kept -/

namespace Variable

mutual

/-- The numbers of a variable and its parts. -/
def ids : Variable → List VariableId
  | object o => [o.id]
  | code o target => o.id :: target.ids
  | function h ret params => h.id :: (ret.ids ++ idsOfAll params)

/-- The numbers of several variables and their parts. -/
def idsOfAll : List Variable → List VariableId
  | [] => []
  | v :: vs => v.ids ++ idsOfAll vs

end

theorem mem_idsOfAll {vs : List Variable} {id : VariableId} : id ∈ idsOfAll vs ↔ ∃ v ∈ vs, id ∈ v.ids := by
  induction vs with
  | nil => simp [idsOfAll]
  | cons v vs ih => simp only [idsOfAll, List.mem_append, ih, List.exists_mem_cons_iff]

end Variable

namespace Store

/-- The numbers by which a store knows constraints. -/
def idsKept (s : Store) : List ConstraintId :=
  s.topLevel.toList ++ s.erased.toList ++ s.forcedBy.values ++
    s.atoms.values.flatMap fun a => a.active.toList ++ a.erased.toList

/-- What the formulas of constraints are put together from. -/
def partsKept (s : Store) : List Formula := s.arena.flatMap (·.formula.parts)

end Store

namespace Program

/-- The variables that a program knows. -/
def variablesKept (p : Program) : List Variable :=
  p.declared.values.flatMap SortedMap.values ++ p.globals.flatMap (fun g => SortedMap.values g.2) ++
    (p.declarations.values ++ p.definitions.values ++ p.onDemand.values)

end Program

/-! ### Constraints -/

namespace Store

variable {s t : Store} {id : ConstraintId} {f : Formula}

theorem Indexed.lt_of_isActive (h : s.Indexed) (hid : s.isActive id = true) : id < s.arena.length :=
  h.known id (isActive_iff.1 hid).1

/-- The numbers in a store that agrees with its atoms are those of constraints, if the numbers
remembered for unchecked atoms are. -/
theorem Indexed.lt_of_mem_idsKept (h : s.Indexed)
    (hcaused : ∀ key id, s.forcedBy.get? key = some id → id < s.arena.length) : ∀ id ∈ s.idsKept, id < s.arena.length := by
  have herased : ∀ id ∈ s.erased, id < s.arena.length := fun id hid => h.known id (h.suspended id hid)
  simp only [idsKept, List.forall_mem_append]
  refine ⟨⟨⟨h.known, herased⟩, fun id hid => ?_⟩, fun id hid => ?_⟩
  · obtain ⟨key, hkey⟩ := SortedMap.mem_values_iff.1 hid
    exact hcaused key id hkey
  · obtain ⟨a, ha, hid⟩ := List.mem_flatMap.1 hid
    obtain ⟨key, hkey⟩ := SortedMap.mem_values_iff.1 ha
    rcases List.mem_append.1 hid with hactive | hsuspended
    · exact h.lt_of_isActive ((h.active key id).1 ⟨a, hkey, hactive⟩).1
    · exact herased id ((h.erased key id).1 ⟨a, hkey, hsuspended⟩).1

/-- What is remembered for an unchecked atom is a constraint in force. -/
theorem Steady.lt_of_caused (h : s.Steady) {key : AtomKey} (hkey : s.forcedBy.get? key = some id) :
    id < s.arena.length := by
  have hin : ∀ {id' f}, s.forcedBy.get? key = some id' → (id', f) ∈ s.activeFormulas → id < s.arena.length := by
    intro id' f hkey' hf
    obtain rfl := Option.some.inj (hkey'.symm.trans hkey)
    exact formula?_lt (mem_activeFormulas.1 hf).2
  cases h.explained.justified key (h.explained.wild key id hkey) with
  | pin hx hf | join hx hf | joinBack hx hf | flow hx hf => exact hin hx hf

/-- A store in which nothing is known that is put together from what is not. -/
def PartsKnown (s : Store) : Prop := ∀ f ∈ s.partsKept, s.Knows f

theorem Built.partsKnown (h : s.Built) : s.PartsKnown := by
  intro f hf
  obtain ⟨c, hc, hf⟩ := List.mem_flatMap.1 hf
  obtain ⟨id, hid⟩ := List.mem_iff_getElem?.1 hc
  exact h.knows_of_mem_parts ⟨id, congrArg (Option.map Constraint.formula) hid⟩ hf

theorem PartsKnown.of_arena (h : s.PartsKnown) (ht : t.arena = s.arena) : t.PartsKnown := by
  unfold PartsKnown partsKept Knows formula? constraint?
  rw [ht]
  exact h

theorem Packed.of_akin (h : s.Packed) (ht : s.Akin t) : t.Packed := fun key => by
  rw [ht.contains key, h key, ht.nextKey]

end Store

/-! ### Variables -/

namespace System

variable {sys : System} {v : Variable}

theorem lt_of_find? {id : VariableId} (h : sys.find? id = some v) : id < sys.declared.length :=
  (List.getElem?_eq_some_iff.1 h).1

theorem Files.lt_of_mem_ids (h : sys.Files v) : ∀ id ∈ v.ids, id < sys.declared.length := by
  induction h with
  | object h =>
      simp only [Variable.ids]
      exact List.forall_mem_singleton.2 (lt_of_find? h)
  | code h _ ih =>
      simp only [Variable.ids]
      exact List.forall_mem_cons.2 ⟨lt_of_find? h, ih⟩
  | function h _ _ ihret ihparams =>
      simp only [Variable.ids, List.forall_mem_cons, List.forall_mem_append]
      refine ⟨lt_of_find? h, ihret, fun id hid => ?_⟩
      obtain ⟨w, hw, hid⟩ := Variable.mem_idsOfAll.1 hid
      exact ihparams w hw id hid

end System

/-! ### Books in order -/

namespace Program

variable {p q : Program} {options : Options}

/-- The books of a program are in order. -/
structure Intact (p : Program) : Prop where
  ready : p.Ready
  packed : p.store.Packed
  parts : p.store.PartsKnown
  filed : ∀ v ∈ p.variablesKept, p.system.Files v

/-- What is remembered for an unchecked atom is the number of a constraint. -/
theorem Intact.lt_of_caused (h : p.Intact) {key : AtomKey} {id : ConstraintId}
    (hkey : p.store.forcedBy.get? key = some id) : id < p.store.arena.length := by
  rcases h.ready with hsteady | hfresh
  · exact hsteady.store.lt_of_caused hkey
  · rw [hfresh.uncaused] at hkey
    exact nomatch hkey

theorem Walks.filed (h : Walks { options } p) : ∀ v ∈ p.variablesKept, p.system.Files v := by
  have hregister : ∀ (l : Register), ∀ v ∈ (p.table l).values, p.system.Files v := by
    intro l v hv
    obtain ⟨key, hkey⟩ := SortedMap.mem_values_iff.1 hv
    exact (h.filedFunctions l key v hkey).2
  simp only [variablesKept, List.forall_mem_append]
  refine ⟨⟨fun v hv => ?_, fun v hv => ?_⟩, ⟨hregister .withoutBody, hregister .withBody⟩, hregister .onDemand⟩
  · obtain ⟨vs, hvs, hv⟩ := List.mem_flatMap.1 hv
    obtain ⟨l, hl⟩ := SortedMap.mem_values_iff.1 hvs
    exact (h.coherent (coherent_start options)).located l vs hl v hv
  · obtain ⟨g, hg, hv⟩ := List.mem_flatMap.1 hv
    obtain ⟨id, hid⟩ := SortedMap.mem_values_iff.1 hv
    exact (h.listsGlobals (listsGlobals_start options)).files g.1 g.2 hg id v hid

theorem Walks.intact (h : Walks { options } p) : p.Intact where
  ready := .inr (Store.Recorded.fresh h.grows)
  packed := h.placed.sound.packed
  parts := (Store.Recorded.built h.grows).partsKnown
  filed := h.filed

theorem variablesKept_link (p : Program) : p.link.variablesKept = p.variablesKept := by
  have hrelinks := p.relinks_link
  unfold variablesKept
  rw [p.samePlaces_link.declared, p.globals_link,
    show p.link.declarations = p.declarations from hrelinks.table .withoutBody,
    show p.link.definitions = p.definitions from hrelinks.table .withBody,
    show p.link.onDemand = p.onDemand from hrelinks.table .onDemand]

theorem Walks.intact_link (h : Walks { options } p) : p.link.Intact where
  ready := .inr h.placed_link.sound.recorded.fresh
  packed := h.placed_link.sound.packed
  parts := h.placed_link.sound.recorded.built.partsKnown
  filed v hv := by
    rw [p.variablesKept_link] at hv
    have hsystem : p.system.declared <+: p.link.system.declared := p.relinks_link.declared ▸ List.prefix_rfl
    exact (h.filed v hv).of_continues hsystem

theorem keptByCalls_intact : KeptByCalls Intact :=
  keptByCalls_of_changes fun p q h hp => by
    have hready := keptByCalls_ready.of_changes h hp.ready
    rcases h.eq with rfl | ⟨s, hs, rfl⟩
    · exact hp
    · -- What is filed depends on no store.
      have hsystem : p.system.Continues (p.withStore s).system := .refl p.system
      exact ⟨hready, hp.packed.of_akin hs, hp.parts.of_arena hs.arena, fun v hv => (hp.filed v hv).of_continues hsystem⟩

/-- **The books of a session's program are in order**, at whatever point. -/
theorem keptThroughout_intact (options : Options) (r : Recording) :
    KeptThroughout options r (Walks { options }) Intact :=
  keptThroughout_of_walks (fun _ h => h.intact_link) keptByCalls_intact

end Program

/-! ### Room -/

namespace Store

variable {s t : Store} {id : ConstraintId} {keys : List AtomKey}

/-- There are numbers left for atoms and for constraints. -/
structure Room (s : Store) : Prop where
  atoms : s.nextKey < keyLimit
  constraints : s.arena.length < keyLimit

/-- A store with at least as many atoms and constraints as another. -/
structure Spans (s t : Store) : Prop where
  atoms : s.nextKey ≤ t.nextKey
  constraints : s.arena.length ≤ t.arena.length

theorem Spans.refl (s : Store) : s.Spans s := ⟨Nat.le_refl _, Nat.le_refl _⟩

theorem Spans.trans {u : Store} (h : s.Spans t) (h' : t.Spans u) : s.Spans u :=
  ⟨Nat.le_trans h.atoms h'.atoms, Nat.le_trans h.constraints h'.constraints⟩

theorem Room.of_spans (h : t.Room) (hs : s.Spans t) : s.Room :=
  ⟨Nat.lt_of_le_of_lt hs.atoms h.atoms, Nat.lt_of_le_of_lt hs.constraints h.constraints⟩

theorem spans_ensureAtom (s : Store) (key : AtomKey) : s.Spans (s.ensureAtom key) :=
  ⟨Nat.le_max_left _ _, Nat.le_refl _⟩

theorem spans_modifyAtom (s : Store) (key : AtomKey) (g : Atom → Atom) : s.Spans (s.modifyAtom key g) :=
  ⟨Nat.le_refl _, Nat.le_refl _⟩

theorem spans_intern (s : Store) (c : Constraint) : s.Spans (s.intern c).2 := by
  refine ⟨?_, ?_⟩
  · rw [(sameAtoms_intern s c).nextKey]
  · exact arena_length_intern s c

theorem spans_attachAll (s : Store) (id : ConstraintId) (keys : List AtomKey) : s.Spans (keys.foldl (attach id) s) := by
  induction keys generalizing s with
  | nil => exact .refl s
  | cons key rest ih => exact ((spans_ensureAtom s key).trans (spans_modifyAtom _ key _)).trans (ih _)

theorem spans_add (s : Store) (id : ConstraintId) : s.Spans (s.add id) := by
  unfold add
  split
  · split
    · rename_i f hf
      have hfilter : s.Spans (s.imposeFilter f) := by
        unfold imposeFilter
        split
        · split
          · exact (spans_ensureAtom s _).trans (spans_modifyAtom _ _ _)
          · exact .refl s
        · exact .refl s
      have hattach := hfilter.trans (spans_attachAll _ id f.atoms.toList)
      exact ⟨hattach.atoms, hattach.constraints⟩
    · exact .refl s
  · exact .refl s

theorem spans_post (s : Store) (c : Constraint) : s.Spans (s.post c).2 := (spans_intern s c).trans (spans_add _ _)

theorem spans_addFlow (s : Store) (a b : AtomKey) (k : Kind) : s.Spans (s.addFlow a b k) :=
  ((spans_intern s _).trans (spans_intern _ _)).trans (spans_post _ _)

/-- Recording gives nothing up. -/
theorem Grows.spans (h : s.Grows t) : s.Spans t := by
  induction h with
  | refl => exact .refl s
  | newAtom _ ih => exact ih.trans (spans_ensureAtom _ _)
  | bar _ key ih => exact ih.trans (spans_modifyAtom _ key _)
  | prefer _ key soft ih => exact ih.trans (spans_modifyAtom _ key _)
  | pin _ key k why ih => exact ih.trans (spans_post _ _)
  | join _ a b why ih => exact ih.trans (spans_post _ _)
  | flow _ a b ih =>
      rw [foldl_addFlow]
      exact ((ih.trans (spans_addFlow _ a b .arr)).trans (spans_addFlow _ a b .ntArr)).trans (spans_addFlow _ a b .wild)

theorem Akin.spans (h : s.Akin t) : s.Spans t := ⟨h.nextKey.ge, by rw [h.arena]⟩

/-- The atoms of a store are as many as the next key says. -/
theorem Packed.size_eq (h : s.Packed) : s.atoms.size = s.nextKey := by
  have hperm : s.atoms.keys.Perm (List.range s.nextKey) :=
    (List.perm_ext_iff_of_nodup s.atoms.nodup_keys List.nodup_range).2 fun key => by
      rw [SortedMap.mem_keys_iff, h key, List.mem_range]
  rw [SortedMap.size_eq, hperm.length_eq, List.length_range]

end Store

end PointerKinds
