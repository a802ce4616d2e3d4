import ConceptLedger.Proofs.Batch.Chain
import ConceptLedger.Proofs.Lifecycle.Counterparts
import ConceptLedger.Proofs.Store.Neighbourhood

/-!
Creations that are executed one after the other. Each of them stores a concept without children and
enters it into the list of its container. In the end every concept lists what was created under it, in
the order in which it was created, beside what it listed before.
-/

namespace ConceptLedger.Batch

open Lifecycle Forest IterationSetup

variable {env : Setting} {p : Partition} {d d' : Draft}

/-- Operations that are executed one after the other and cause nothing. -/
inductive Steps (env : Setting) : Draft → List (Partition × Operation) → Draft → Prop
  | done {d : Draft} : Steps env d [] d
  | next {d d' d'' : Draft} {p : Partition} {operation : Operation}
      {waiting : List (Partition × Operation)} (forests : d.Forested)
      (effect : Effect env p d operation [] d') (later : Steps env d' waiting d'') :
      Steps env d ((p, operation) :: waiting) d''

/-- Calm operations at the head of a queue are executed before anything else. -/
theorem Chain.steps {first later : List (Partition × Operation)} {d'' : Draft}
    (standard : env.registry = Registry.standard) (forests : d.Forested)
    (calm : ∀ x ∈ first, x.2.Calm) (chain : Chain env d (first ++ later) d'') :
    ∃ d', d'.Forested ∧ Steps env d first d' ∧ Chain env d' later d'' := by
  induction first generalizing d with
  | nil => exact ⟨d, forests, .done, chain⟩
  | cons head rest ih =>
    obtain ⟨p, operation⟩ := head
    rw [List.cons_append] at chain
    cases chain with
    | next effect more =>
      obtain rfl := (effect.caused standard (forests p)).of_calm (calm _ List.mem_cons_self)
      rw [List.map_nil, List.append_nil] at more
      obtain ⟨d', forests', steps, remaining⟩ := ih (effect.forested standard forests)
        (fun x member => calm x (List.mem_cons_of_mem _ member)) more
      exact ⟨d', forests', .next forests effect steps, remaining⟩

/-- A concept after children have been entered into its lists. -/
structure Filled (children : Containment → List (ConceptId × Option Int64)) (c c' : Concept) : Prop where
  id : c'.id = c.id
  outline : c'.outline = c.outline
  override : c'.accessOverride = c.accessOverride
  properties : ∀ name, (∀ q ∈ c.conceptType.containment, q.name ≠ name) →
    c'.property? name = c.property? name
  lists : ∀ q ∈ c.conceptType.containment, Concept.Inserts q (children q) (c.entries q) (c'.entries q)

namespace Filled

variable {children children' : Containment → List (ConceptId × Option Int64)} {a b c : Concept}

theorem refl (c : Concept) : Filled (fun _ => []) c c :=
  ⟨rfl, rfl, rfl, fun _ _ => rfl, fun _ _ => .done⟩

theorem congr (filled : Filled children a b)
    (same : ∀ q ∈ a.conceptType.containment, children' q = children q) : Filled children' a b :=
  { filled with lists := fun q declared => same q declared ▸ filled.lists q declared }

/-- The revision of the former state does not matter. -/
theorem of_stamped {r : UInt64} (filled : Filled children { a with revisionNumber := r } b) :
    Filled children a b :=
  ⟨filled.id, filled.outline, filled.override, filled.properties, filled.lists⟩

theorem conceptType (filled : Filled children a b) : b.conceptType = a.conceptType :=
  congrArg Outline.conceptType filled.outline

theorem trans (first : Filled children a b) (later : Filled children' b c) :
    Filled (fun q => children q ++ children' q) a c where
  id := later.id.trans first.id
  outline := later.outline.trans first.outline
  override := later.override.trans first.override
  properties name other :=
    (later.properties name (by rwa [first.conceptType])).trans (first.properties name other)
  lists q declared :=
    (first.lists q declared).trans (later.lists q (by rwa [first.conceptType]))

/-- A container that lists a child more. -/
theorem of_relists {q : Containment} {r : UInt64} {child : ConceptId} {orderKey : Option Int64}
    (declared : q ∈ a.conceptType.containment) (relists : Relists q r a b)
    (inserted : Concept.Inserted q child orderKey (a.entries q) (b.entries q)) :
    Filled (fun q' => if q' = q then [(child, orderKey)] else []) a b := by
  obtain ⟨value, rfl⟩ := relists
  refine ⟨rfl, rfl, rfl, fun name other => ?_, fun q' declared' => ?_⟩
  · exact Concept.property?_setProperty_ne a value (other q declared).symm
  · by_cases same : q' = q
    · subst same
      rw [if_pos rfl]
      exact .next inserted .done
    · rw [if_neg same]
      have apart : q'.name ≠ q.name := fun names =>
        same (Concept.containment_eq_of_name declared' declared names)
      have kept : Concept.Inserts q' [] (a.entries q') ((a.setProperty q.name value).entries q') := by
        rw [Concept.entries_congr (Concept.property?_setProperty_ne a value apart)]
        exact .done
      exact kept

end Filled

/-- What is created under a concept for one of its lists, with the order keys. -/
def childrenOf (creations : List (Concept × Option Int64)) (x : ConceptId) (q : Containment) :
    List (ConceptId × Option Int64) :=
  (creations.filter fun a => a.1.container = some x ∧ a.1.conceptType = q.target).map
    fun a => (a.1.id, a.2)

theorem childrenOf_cons_of_ne {creations : List (Concept × Option Int64)} {c : Concept}
    {orderKey : Option Int64} {x : ConceptId} (other : c.container ≠ some x) :
    childrenOf ((c, orderKey) :: creations) x = childrenOf creations x := by
  funext q
  unfold childrenOf
  rw [List.filter_cons_of_neg (by simp [other])]

/-- A creation counts for the one list of its container that takes its type. -/
theorem childrenOf_cons {creations : List (Concept × Option Int64)} {c parent : Concept}
    {orderKey : Option Int64} {q q' : Containment} (container : c.container = some parent.id)
    (fits : parent.conceptType.containmentFor? c.conceptType = some q)
    (declared : q' ∈ parent.conceptType.containment) :
    childrenOf ((c, orderKey) :: creations) parent.id q' =
      (if q' = q then [(c.id, orderKey)] else []) ++ childrenOf creations parent.id q' := by
  obtain ⟨member, target⟩ := ConceptType.containmentFor?_eq_some_iff.mp fits
  unfold childrenOf
  by_cases same : q' = q
  · rw [if_pos same, List.filter_cons_of_pos (by simp [container, same, target]), List.map_cons,
      List.singleton_append]
  · have other : c.conceptType ≠ q'.target := fun targets =>
      same (Concept.containment_eq_of_target declared member (targets.symm.trans target.symm))
    rw [if_neg same, List.filter_cons_of_neg (by simp [other]), List.nil_append]

/-- Concepts without rules of their own that are created in a partition, one after the other. -/
inductive Created (p : Partition) : Draft → List (Concept × Option Int64) → Draft → Prop
  | done {d : Draft} : Created p d [] d
  | next {d d' d'' : Draft} {c parent parent' : Concept} {orderKey : Option Int64} {q : Containment}
      {r : UInt64} {more : List (Concept × Option Int64)} (fresh : d.find? p c.id = none)
      (container : c.container = some parent.id) (there : d.find? p parent.id = some parent)
      (fits : parent.conceptType.containmentFor? c.conceptType = some q)
      (relists : Relists q r parent parent')
      (inserted : Concept.Inserted q c.id orderKey (parent.entries q) (parent'.entries q))
      (store : d'.find? p =
        Forest.place (Forest.place (d.find? p) { c.withoutChildren with revisionNumber := r }) parent')
      (elsewhere : ∀ q, q ≠ p → d'.find? q = d.find? q) (later : Created p d' more d'') :
      Created p d ((c, orderKey) :: more) d''

/-- A type that is contained in other concepts and has no rules of its own. -/
def Unruled (t : ConceptType) : Prop :=
  t.isRoot = false ∧ t ≠ .engineeringModelSetup ∧ t ≠ .iterationSetup

theorem Steps.created {creations : List (Concept × Option Int64)}
    (standard : env.registry = Registry.standard) (unruled : ∀ a ∈ creations, Unruled a.1.conceptType)
    (steps : Steps env d (creations.map fun a => (p, .create a.1 a.2)) d') : Created p d creations d' := by
  induction creations generalizing d with
  | nil =>
    cases steps
    exact .done
  | cons head rest ih =>
    obtain ⟨c, orderKey⟩ := head
    obtain ⟨inner, model, iteration⟩ : Unruled c.conceptType := unruled _ List.mem_cons_self
    cases steps with
    | next forests effect later =>
      have more := ih (fun a member => unruled a (List.mem_cons_of_mem _ member)) later
      have elsewhere := fun q (other : q ≠ p) => effect.elsewhere other
      cases effect with
      | create effect =>
        obtain ⟨c', parent, parent', q, joined⟩ := effect.joined standard (forests p) inner
        obtain ⟨rfl, -⟩ := joined.request.hooked.of_none
          (by rw [standard, c.withoutChildren_conceptType]; exact hooksFor_other model iteration)
        exact .next joined.request.fresh joined.container joined.there joined.declared joined.relists
          joined.inserted joined.store elsewhere more

namespace Created

variable {creations : List (Concept × Option Int64)} {x : ConceptId} {c : Concept}

theorem elsewhere (created : Created p d creations d') {q : Partition} (other : q ≠ p) :
    d'.find? q = d.find? q := by
  induction created with
  | done => rfl
  | next _ _ _ _ _ _ _ elsewhere _ ih => rw [ih, elsewhere q other]

/-- What is stored stays, and takes in what is created under it. -/
theorem old (created : Created p d creations d') (stored : d.find? p x = some c) (keyed : c.id = x) :
    ∃ c', d'.find? p x = some c' ∧ Filled (childrenOf creations x) c c' := by
  induction created generalizing c with
  | done => exact ⟨c, stored, (Filled.refl c).congr fun _ _ => rfl⟩
  | @next d d' d'' child parent parent' orderKey q r more fresh container there fits relists inserted
      store _ _ ih =>
    obtain ⟨declared, -⟩ := ConceptType.containmentFor?_eq_some_iff.mp fits
    have grows := Filled.of_relists declared relists inserted
    by_cases here : x = parent.id
    · subst here
      cases stored.symm.trans there
      have after : d'.find? p parent.id = some parent' := by
        rw [store]
        exact place_eq_some_iff.mpr (.inl ⟨grows.id.symm, rfl⟩)
      obtain ⟨c', found, filled⟩ := ih after grows.id
      exact ⟨c', found, (grows.trans filled).congr fun q' declared' =>
        childrenOf_cons container fits declared'⟩
    · have apart : x ≠ child.id := by
        rintro rfl
        cases stored.symm.trans fresh
      have after : d'.find? p x = some c := by
        rw [store]
        refine place_eq_some_iff.mpr (.inr ⟨grows.id.symm ▸ here, ?_⟩)
        exact place_eq_some_iff.mpr (.inr ⟨by rwa [← child.withoutChildren_id] at apart, stored⟩)
      obtain ⟨c', found, filled⟩ := ih after keyed
      refine ⟨c', found, ?_⟩
      rw [childrenOf_cons_of_ne]
      · exact filled
      · rw [container]
        exact fun same => here (Option.some.inj same).symm

/-- What has nothing created under it is left as it is. -/
theorem kept (created : Created p d creations d') (stored : d.find? p x = some c)
    (apart : ∀ a ∈ creations, a.1.container ≠ some x) : d'.find? p x = some c := by
  induction created with
  | done => exact stored
  | @next d d' d'' child parent parent' orderKey q r more fresh container there fits relists inserted
      store _ _ ih =>
    refine ih ?_ fun a member => apart a (List.mem_cons_of_mem _ member)
    obtain ⟨value, rfl⟩ := relists
    rw [store]
    refine place_eq_some_iff.mpr (.inr ⟨?_, place_eq_some_iff.mpr (.inr ⟨?_, stored⟩)⟩)
    · rintro rfl
      exact apart _ List.mem_cons_self container
    · rintro rfl
      rw [show Concept.id _ = child.id from child.withoutChildren_id] at stored
      cases stored.symm.trans fresh

/-- Nothing is stored besides what is created and what was stored before. -/
theorem absent (created : Created p d creations d') (absent : d.find? p x = none)
    (other : ∀ a ∈ creations, a.1.id ≠ x) : d'.find? p x = none := by
  induction created with
  | done => exact absent
  | @next d d' d'' child parent parent' orderKey q r more fresh container there fits relists inserted
      store _ _ ih =>
    refine ih ?_ fun a member => other a (List.mem_cons_of_mem _ member)
    obtain ⟨value, rfl⟩ := relists
    by_contra present
    obtain ⟨c, stored⟩ := Option.ne_none_iff_exists'.mp present
    rw [store] at stored
    rcases place_place_cases stored with ⟨rfl, -⟩ | ⟨rfl, -⟩ | ⟨-, -, before⟩
    · cases absent.symm.trans there
    · exact other _ List.mem_cons_self child.withoutChildren_id.symm
    · cases absent.symm.trans before

/-- What is created was not there before, and is created once. -/
theorem fresh (created : Created p d creations d') :
    (∀ a ∈ creations, d.find? p a.1.id = none) ∧ (creations.map (·.1.id)).Nodup := by
  induction created with
  | done => exact ⟨fun _ none => absurd none List.not_mem_nil, List.nodup_nil⟩
  | @next d d' d'' child parent parent' orderKey q r more fresh container there fits relists inserted
      store _ _ ih =>
    obtain ⟨value, rfl⟩ := relists
    obtain ⟨absent, nodup⟩ := ih
    have stays : ∀ {x}, d'.find? p x = none → x ≠ child.id ∧ d.find? p x = none := by
      intro x none
      rw [store] at none
      unfold Forest.place at none
      split at none
      · cases none
      · split at none
        · cases none
        · rename_i other
          rw [show Concept.id _ = child.id from child.withoutChildren_id] at other
          exact ⟨other, none⟩
    refine ⟨fun a member => ?_, List.nodup_cons.mpr ⟨fun again => ?_, nodup⟩⟩
    · rcases List.mem_cons.mp member with rfl | later
      · exact fresh
      · exact (stays (absent a later)).2
    · obtain ⟨a, member, same⟩ := List.mem_map.mp again
      exact (stays (absent a member)).1 same

/-- What is created is stored as it was submitted, with what is created under it as its children. -/
theorem new (created : Created p d creations d') {a : Concept × Option Int64} (member : a ∈ creations) :
    ∃ c', d'.find? p a.1.id = some c' ∧ Filled (childrenOf creations a.1.id) a.1.withoutChildren c' := by
  have unborn := created.fresh.1
  induction created with
  | done => cases member
  | @next d d' d'' child parent parent' orderKey q r more fresh container there fits relists inserted
      store _ later ih =>
    have apart : ∀ b ∈ (child, orderKey) :: more, b.1.id ≠ parent.id := by
      intro b inside same
      have none := unborn b inside
      rw [same] at none
      cases none.symm.trans there
    have others : child.container ≠ some a.1.id := by
      rw [container]
      exact fun same => apart a member (Option.some.inj same).symm
    rw [childrenOf_cons_of_ne others]
    rcases List.mem_cons.mp member with rfl | inside
    · have after : d'.find? p child.id = some { child.withoutChildren with revisionNumber := r } := by
        obtain ⟨value, rfl⟩ := relists
        rw [store]
        refine place_eq_some_iff.mpr (.inr ⟨apart _ member, place_eq_some_iff.mpr (.inl ⟨?_, rfl⟩)⟩)
        exact child.withoutChildren_id.symm
      obtain ⟨c', found, filled⟩ := later.old after child.withoutChildren_id
      exact ⟨c', found, filled.of_stamped⟩
    · exact ih inside later.fresh.1

end Created

end ConceptLedger.Batch
