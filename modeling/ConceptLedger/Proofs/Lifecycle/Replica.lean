import ConceptLedger.Proofs.Lifecycle.Copying
import ConceptLedger.Proofs.Lifecycle.Creations
import Mathlib.Data.Set.Function

/-!
Replicas. When the copies of a plan have been created, the contents of a concept are repeated under a new
one: the new identifiers stand for the former ones, one to one, and containers and lists go along.
-/

namespace ConceptLedger

open Forest Outline Batch

theorem Concept.entries_withoutChildren {c : Concept} {q : Containment}
    (declared : q ∈ c.conceptType.containment) : c.withoutChildren.entries q = [] := by
  unfold Concept.entries
  rw [Concept.property?_withoutChildren declared, Concept.emptyList]
  cases q.ordered <;> rfl

/-- In a complete concept, just the entries of ordered lists have keys. -/
theorem Concept.Complete.keyed {c : Concept} (complete : c.Complete) {q : Containment}
    (declared : q ∈ c.conceptType.containment) : ∀ entry ∈ c.entries q, entry.2.isSome = q.ordered := by
  have shaped := (Concept.checkShape_ok_iff.mp complete.shape).1 q declared
  intro entry listed
  cases ordered : q.ordered with
  | true =>
    rw [Concept.entries_of_ordered ordered shaped] at listed
    obtain ⟨i, -, rfl⟩ := List.mem_map.mp listed
    rfl
  | false =>
    rw [Concept.entries_of_unordered ordered shaped] at listed
    obtain ⟨x, -, rfl⟩ := List.mem_map.mp listed
    rfl

/-- The contents of a concept repeated under another one. The identifiers within the concept stand one to
one for those within the other; those were not in use. What has a copy agrees with it in its type, its
override and its properties other than containment lists, and its container stands for that of the copy.
Lists are repeated entry by entry, with the order keys. -/
structure Replica (f g : ConceptId → Option Concept) (top new : ConceptId)
    (copy : ConceptId → ConceptId) : Prop where
  head : copy top = new
  bijective : Set.BijOn copy {x | Within (outlines f) top x} {y | Within (outlines g) new y}
  fresh : ∀ x, Within (outlines f) top x → f (copy x) = none
  alike : ∀ x c, Within (outlines f) top x → x ≠ top → f x = some c → ∃ c', g (copy x) = some c' ∧
    c'.outline = ⟨c.conceptType, c.container.map copy⟩ ∧ c'.accessOverride = c.accessOverride ∧
    ∀ name, (∀ q ∈ c.conceptType.containment, q.name ≠ name) → c'.property? name = c.property? name
  lists : ∀ x c c', Within (outlines f) top x → f x = some c → g (copy x) = some c' →
    ∀ q ∈ c.conceptType.containment,
      c'.entries q = (c.entries q).map fun entry => (copy entry.1, entry.2)

namespace IterationSetup

variable {f g : ConceptId → Option Concept} {top : Concept} {new : ConceptId} {copies : List Copy}

/-- A copy agrees with what is copied, up to its place and its lists. -/
theorem copyOf_eq (c : Concept) (id parent : ConceptId) :
    (copyOf c id parent).id = id ∧ (copyOf c id parent).outline = ⟨c.conceptType, some parent⟩ ∧
      (copyOf c id parent).accessOverride = c.accessOverride ∧
      ∀ name, (∀ q ∈ c.conceptType.containment, q.name ≠ name) →
        (copyOf c id parent).property? name = c.property? name := by
  unfold copyOf
  refine ⟨Concept.withoutChildren_id _, ?_, ?_, fun name other => ?_⟩
  · exact Concept.outline_eq (c := { c with container := some parent })
      (Concept.withoutChildren_conceptType _) (Concept.withoutChildren_container _)
  · exact (Concept.bare_eq_iff.mp (Concept.withoutChildren_bare _)).2.2.2.2
  · exact Concept.property?_withoutChildren_other
      (c := { c with id, container := some parent, revisionNumber := 0 }) other

namespace Copy

theorem payload_id (i : Copy) : i.payload.id = i.id := (copyOf_eq i.source i.id i.parent).1

theorem payload_outline (i : Copy) : i.payload.outline = ⟨i.source.conceptType, some i.parent⟩ :=
  (copyOf_eq i.source i.id i.parent).2.1

theorem payload_conceptType (i : Copy) : i.payload.conceptType = i.source.conceptType :=
  congrArg Outline.conceptType i.payload_outline

theorem payload_container (i : Copy) : i.payload.container = some i.parent :=
  congrArg Outline.container i.payload_outline

end Copy

/-- The creations of the copies. -/
def creations (copies : List Copy) : List (Concept × Option Int64) :=
  copies.map fun i => (i.payload, i.key)

theorem mem_creations {a : Concept × Option Int64} :
    a ∈ creations copies ↔ ∃ i ∈ copies, (i.payload, i.key) = a := List.mem_map

/-- The identifier of the copy of a concept. -/
def copyId (top new : ConceptId) (copies : List Copy) (x : ConceptId) : ConceptId :=
  if x = top then new else ((copies.find? fun i => i.source.id = x).map (·.id)).getD x

theorem childrenOf_creations (copies : List Copy) (x : ConceptId) (q : Containment) :
    childrenOf (creations copies) x q =
      (copies.filter fun i => i.parent = x ∧ i.source.conceptType = q.target).map
        fun i => (i.id, i.key) := by
  unfold childrenOf creations
  rw [List.filter_map, List.map_map]
  have same : ((fun a : Concept × Option Int64 =>
      decide (a.1.container = some x ∧ a.1.conceptType = q.target)) ∘ fun i => (i.payload, i.key)) =
      fun i : Copy => decide (i.parent = x ∧ i.source.conceptType = q.target) := by
    funext i
    simp only [Function.comp_apply, i.payload_container, i.payload_conceptType, Option.some.injEq]
  rw [same]
  refine List.map_congr_left fun i _ => ?_
  rw [Function.comp_apply, i.payload_id]

namespace Repeating

/-- The copies of what is in one list of a concept, if the copies of all that it lists are known. -/
theorem entries (repeating : Repeating f top new copies) {c : Concept} {x z : ConceptId}
    (stored : f x = some c) (listing : (copies.filter (·.parent = z)).map Copy.entry = c.listing)
    {q : Containment} (declared : q ∈ c.conceptType.containment) :
    (copies.filter fun i => i.parent = z ∧ i.source.conceptType = q.target).map Copy.entry =
      c.entries q := by
  rw [← Concept.listing_filter repeating.forest stored declared, ← listing, List.filter_map,
    List.filter_filter]
  congr 1
  refine List.filter_congr fun i member => ?_
  rw [Function.comp_apply, Copy.entry, repeating.source_stored i member, Option.map_some,
    Bool.decide_and, Bool.and_comm]
  simp only [Option.some.injEq]

theorem copyId_top : copyId top.id new copies top.id = new := if_pos rfl

theorem copyId_source (repeating : Repeating f top new copies) (tidy : Tidy f top.id) {i : Copy}
    (member : i ∈ copies) : copyId top.id new copies i.source.id = i.id := by
  rw [copyId, if_neg (repeating.source_within member).2]
  cases found : copies.find? fun j => j.source.id = i.source.id with
  | none =>
    have none := List.find?_eq_none.mp found i member
    simp at none
  | some j =>
    have same : j.source.id = i.source.id := by simpa using List.find?_some found
    rw [repeating.unique tidy (List.mem_of_find?_eq_some found) member same]
    rfl

/-- What is created under the copy of a concept repeats its lists. -/
theorem children (repeating : Repeating f top new copies) (tidy : Tidy f top.id) {c : Concept}
    {x z : ConceptId} (stored : f x = some c)
    (listing : (copies.filter (·.parent = z)).map Copy.entry = c.listing) {q : Containment}
    (declared : q ∈ c.conceptType.containment) : childrenOf (creations copies) z q =
      (c.entries q).map fun entry => (copyId top.id new copies entry.1, entry.2) := by
  rw [childrenOf_creations, ← repeating.entries stored listing declared, List.map_map]
  refine List.map_congr_left fun i member => ?_
  rw [Function.comp_apply, Copy.entry, repeating.copyId_source tidy (List.mem_filter.mp member).1]

end Repeating

/-- The copies of a plan as they are stored after their creation, under a new concept of the same type. -/
structure Repeated (f g : ConceptId → Option Concept) (top : Concept) (new : ConceptId)
    (copies : List Copy) : Prop extends Repeating f top new copies where
  after : Forest g
  unused : f new = none ∧ ∀ i ∈ copies, f i.id = none
  head : ∃ base c' : Concept, g new = some c' ∧ base.conceptType = top.conceptType ∧
    Filled (childrenOf (creations copies) new) base.withoutChildren c'
  copied : ∀ i ∈ copies, ∃ c', g i.id = some c' ∧
    Filled (childrenOf (creations copies) i.id) i.payload.withoutChildren c'

namespace Repeated

/-- What stands for a concept: what was created under it is what the concept lists. -/
theorem counterpart (repeated : Repeated f g top new copies) (tidy : Tidy f top.id) {x : ConceptId}
    {c : Concept} (within : Within (outlines f) top.id x) (stored : f x = some c) :
    ∃ base c' : Concept, g (copyId top.id new copies x) = some c' ∧ base.conceptType = c.conceptType ∧
      Filled (childrenOf (creations copies) (copyId top.id new copies x)) base.withoutChildren c' ∧
      (copies.filter (·.parent = copyId top.id new copies x)).map Copy.entry = c.listing := by
  have keyed := repeated.forest.keyed
  rcases repeated.complete within with rfl | ⟨i, member, rfl⟩
  · cases repeated.stored.symm.trans stored
    rw [Repeating.copyId_top]
    obtain ⟨base, c', found, kind, filled⟩ := repeated.head
    exact ⟨base, c', found, kind, filled, repeated.plan.under_parent keyed repeated.fresh⟩
  · cases (repeated.source_stored i member).symm.trans stored
    rw [repeated.copyId_source tidy member]
    obtain ⟨c', found, filled⟩ := repeated.copied i member
    exact ⟨i.payload, c', found, i.payload_conceptType, filled, repeated.plan.under_copy keyed repeated.fresh i member⟩

theorem lists (repeated : Repeated f g top new copies) (tidy : Tidy f top.id) {x : ConceptId}
    {c c' : Concept} (within : Within (outlines f) top.id x) (stored : f x = some c)
    (found : g (copyId top.id new copies x) = some c') {q : Containment}
    (declared : q ∈ c.conceptType.containment) : c'.entries q =
      (c.entries q).map fun entry => (copyId top.id new copies entry.1, entry.2) := by
  obtain ⟨base, c'', found', kind, filled, listing⟩ := repeated.counterpart tidy within stored
  cases found.symm.trans found'
  have declared' : q ∈ base.conceptType.containment := kind ▸ declared
  have inserts := filled.lists q (by rwa [base.withoutChildren_conceptType])
  rw [Concept.entries_withoutChildren declared',
    repeated.children tidy stored listing declared] at inserts
  refine inserts.eq_append ?_ ?_
  · intro entry member
    obtain ⟨former, listed, rfl⟩ := List.mem_map.mp member
    exact (repeated.forest.complete _ _ stored).keyed declared former listed
  · rw [List.nil_append, List.filterMap_map]
    exact tidy.ascending x c within stored q declared

/-- Containers of copies are copies of containers. -/
theorem copied_container (repeated : Repeated f g top new copies) (tidy : Tidy f top.id) {i : Copy}
    (member : i ∈ copies) :
    some i.parent = i.source.container.map (copyId top.id new copies) := by
  rcases repeated.container member with ⟨own, above⟩ | ⟨j, inside, own, above⟩
  · rw [above, own, Option.map_some, Repeating.copyId_top]
  · rw [above, own, Option.map_some, repeated.copyId_source tidy inside]

theorem alike (repeated : Repeated f g top new copies) (tidy : Tidy f top.id) {x : ConceptId}
    {c : Concept} (within : Within (outlines f) top.id x) (inner : x ≠ top.id) (stored : f x = some c) :
    ∃ c', g (copyId top.id new copies x) = some c' ∧
      c'.outline = ⟨c.conceptType, c.container.map (copyId top.id new copies)⟩ ∧
      c'.accessOverride = c.accessOverride ∧
      ∀ name, (∀ q ∈ c.conceptType.containment, q.name ≠ name) →
        c'.property? name = c.property? name := by
  obtain ⟨i, member, rfl⟩ := (repeated.complete within).resolve_left inner
  cases (repeated.source_stored i member).symm.trans stored
  rw [repeated.copyId_source tidy member]
  obtain ⟨c', found, filled⟩ := repeated.copied i member
  obtain ⟨-, -, override, properties⟩ := copyOf_eq i.source i.id i.parent
  have bare := Concept.bare_eq_iff.mp i.payload.withoutChildren_bare
  refine ⟨c', found, ?_, ?_, fun name other => ?_⟩
  · rw [filled.outline, Concept.outline, bare.2.1, bare.2.2.2.1, ← repeated.copied_container tidy member]
    exact i.payload_outline
  · rw [filled.override, bare.2.2.2.2]
    exact override
  · rw [filled.properties name (by
        rwa [i.payload.withoutChildren_conceptType, i.payload_conceptType]),
      Concept.property?_withoutChildren_other (by rwa [i.payload_conceptType])]
    exact properties name other

theorem mapsTo (repeated : Repeated f g top new copies) (tidy : Tidy f top.id) :
    Set.MapsTo (copyId top.id new copies) {x | Within (outlines f) top.id x}
      {y | Within (outlines g) new y} := by
  rintro x (within : Within (outlines f) top.id x)
  show Within (outlines g) new (copyId top.id new copies x)
  induction within with
  | top =>
    rw [Repeating.copyId_top]
    exact .top
  | @under x y u placed container inside ih =>
    obtain ⟨c, stored, rfl⟩ := outlines_eq_some_iff.mp placed
    have within := Within.under placed container inside
    have inner : x ≠ top.id := by
      rintro rfl
      exact repeated.forest.ordered.container_not_within placed container inside
    obtain ⟨c', found, outline, -⟩ := repeated.alike tidy within inner stored
    have named : c.container = some y := container
    rw [named] at outline
    exact .under (outlines_eq_some_iff.mpr ⟨c', found, outline⟩) rfl ih

theorem injOn (repeated : Repeated f g top new copies) (tidy : Tidy f top.id) :
    Set.InjOn (copyId top.id new copies) {x | Within (outlines f) top.id x} := by
  obtain ⟨apart, nodup⟩ := List.nodup_cons.mp repeated.fresh
  intro x first y second same
  rcases repeated.complete first with rfl | ⟨i, member, rfl⟩ <;>
    rcases repeated.complete second with rfl | ⟨j, inside, rfl⟩
  · rfl
  · rw [Repeating.copyId_top, repeated.copyId_source tidy inside] at same
    exact absurd (List.mem_map.mpr ⟨j, inside, same.symm⟩) apart
  · rw [Repeating.copyId_top, repeated.copyId_source tidy member] at same
    exact absurd (List.mem_map.mpr ⟨i, member, same⟩) apart
  · rw [repeated.copyId_source tidy member, repeated.copyId_source tidy inside] at same
    rw [List.inj_on_of_nodup_map nodup member inside same]

theorem surjOn (repeated : Repeated f g top new copies) (tidy : Tidy f top.id) :
    Set.SurjOn (copyId top.id new copies) {x | Within (outlines f) top.id x}
      {y | Within (outlines g) new y} := by
  rintro y (within : Within (outlines g) new y)
  induction within with
  | top => exact ⟨top.id, .top, Repeating.copyId_top⟩
  | @under y z u placed container inside ih =>
    obtain ⟨x, below, rfl⟩ := ih
    obtain ⟨c', stored', rfl⟩ := outlines_eq_some_iff.mp placed
    have below : Within (outlines f) top.id x := below
    -- what is contained in a copy is listed by it, and so is the copy of what is listed by the original
    have held : ∃ c, f x = some c := by
      rcases repeated.complete below with rfl | ⟨i, member, rfl⟩
      · exact ⟨top, repeated.stored⟩
      · exact ⟨_, repeated.source_stored i member⟩
    obtain ⟨c, stored⟩ := held
    obtain ⟨base, parent, found, kind, filled, -⟩ := repeated.counterpart tidy below stored
    obtain ⟨parent', q, found', fits⟩ := repeated.after.container_stored stored' container
    cases found.symm.trans found'
    obtain ⟨declared, target⟩ := ConceptType.containmentFor?_eq_some_iff.mp fits
    have type : parent.conceptType = c.conceptType := by
      rw [filled.conceptType, base.withoutChildren_conceptType, kind]
    have listed : y ∈ parent.members q := (repeated.after.listed _ _ found q declared y).mpr
      (outlines_eq_some_iff.mpr ⟨c', stored', by rw [Concept.outline, target]; congr 1⟩)
    rw [Concept.members, repeated.lists tidy below stored found (type ▸ declared), List.map_map] at listed
    obtain ⟨entry, member, rfl⟩ := List.mem_map.mp listed
    obtain ⟨child, there, -, above⟩ :=
      Concept.of_mem_entries repeated.forest stored (type ▸ declared) member
    exact ⟨entry.1, .under (outlines_eq_some_iff.mpr ⟨child, there, rfl⟩) above below, rfl⟩

/-- The copies are a replica. -/
theorem replica (repeated : Repeated f g top new copies) (tidy : Tidy f top.id) :
    Replica f g top.id new (copyId top.id new copies) where
  head := Repeating.copyId_top
  bijective := ⟨repeated.mapsTo tidy, repeated.injOn tidy, repeated.surjOn tidy⟩
  fresh x within := by
    rcases repeated.complete within with rfl | ⟨i, member, rfl⟩
    · rw [Repeating.copyId_top]
      exact repeated.unused.1
    · rw [repeated.copyId_source tidy member]
      exact repeated.unused.2 i member
  alike _ _ within inner stored := repeated.alike tidy within inner stored
  lists _ _ _ within stored found _ declared := repeated.lists tidy within stored found declared

end Repeated

end IterationSetup

end ConceptLedger
