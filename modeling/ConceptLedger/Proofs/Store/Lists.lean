import ConceptLedger.Proofs.Concept.Lists
import ConceptLedger.Proofs.Lifecycle.Cascades
import ConceptLedger.Proofs.Store.Queue

/-!
Containment lists over whole histories. Creations and deletions keep a containment list free of
repeated children and of repeated order keys, and keep it sorted. An update only has to name the
stored children, and puts in place any list that does: a list is out of order only if an update of
its concept submitted one that was.
-/

namespace ConceptLedger

open Batch Forest

/-- A containment list of one concept follows a rule, in what is stored and in the updates of the
concept that wait. -/
structure Follows (P : List (ConceptId × Option Int64) → Prop) (p : Partition) (x : ConceptId)
    (q : Containment) (f : Stock) (queue : List (Partition × Operation)) : Prop where
  stored : ∀ c, f p x = some c → q ∈ c.conceptType.containment → P (c.entries q)
  waiting : ∀ c, (p, .update c) ∈ queue → c.id = x → q ∈ c.conceptType.containment → P (c.entries q)

namespace Batch

variable {P : List (ConceptId × Option Int64) → Prop} {env : Setting} {p : Partition}
  {d d' : Draft} {x : ConceptId} {q : Containment}

/-- An updated list is the stored one or the submitted one. -/
theorem UpdateRequest.entries {c former c₁ c' : Concept} {container : Option Concept}
    {outcome : HookOutcome} (standard : env.registry = Registry.standard)
    (request : UpdateRequest env p d c former c₁ container c' outcome)
    (member : q ∈ c'.conceptType.containment) :
    c'.entries q = former.entries q ∨ c'.entries q = c.entries q := by
  obtain ⟨bare, -, lists⟩ := Concept.withStoredChildren_ok request.children
  have type : c₁.conceptType = c.conceptType := (Concept.bare_eq_iff.mp bare).2.1
  have kept := request.hooked.kept standard
  rw [kept.conceptType] at member
  rw [Concept.entries_congr (kept.lists q member)]
  rw [type] at member
  rcases lists q member with ⟨-, stored⟩ | ⟨given, -, -⟩
  · exact .inl (Concept.entries_congr stored)
  · exact .inr (Concept.entries_congr given)

/-- A container with a new child in one of its lists. -/
theorem attach_entries {parent child extended : Concept} {orderKey : Option Int64}
    (rule : ListRule P) (complete : parent.Complete)
    (run : parent.attach child orderKey = .ok extended) (fresh : child.id ∉ parent.members q)
    (member : q ∈ parent.conceptType.containment) (before : P (parent.entries q)) :
    P (extended.entries q) := by
  obtain ⟨q', declared, -, value, list, rfl⟩ := Concept.attach_ok run
  by_cases same : q' = q
  · subst same
    have shaped := (Concept.checkShape_ok_iff.mp complete.shape).1 q' declared
    exact rule.extended _ _ _ (Concept.extendedList_extends shaped list) fresh before
  · have apart : q.name ≠ q'.name := fun names =>
      same (Concept.containment_eq_of_name member declared names).symm
    rw [Concept.entries_congr (Concept.property?_setProperty_ne parent value apart)]
    exact before

/-- What an operation makes of the concept that it is about follows a rule. -/
theorem Handled.entries {operation : Operation} {c : Concept} (rule : ListRule P)
    (standard : env.registry = Registry.standard)
    (stored : ∀ c, d.find? p x = some c → q ∈ c.conceptType.containment → P (c.entries q))
    (submitted : ∀ c, operation = .update c → c.id = x → q ∈ c.conceptType.containment →
      P (c.entries q))
    (own : Handled env p d x operation c) (member : q ∈ c.conceptType.containment) :
    P (c.entries q) := by
  cases own with
  | @created _ c' _ _ _ r _ request =>
    have none : c'.entries q = [] :=
      List.map_eq_nil_iff.mp ((request.child standard).2.2.2 q member)
    exact none ▸ rule.empty
  | @updated c former _ c' _ _ r here request _ =>
    have type : c'.conceptType = former.conceptType :=
      congrArg Outline.conceptType (request.outline standard)
    have declared : q ∈ former.conceptType.containment := type ▸ member
    have there : d.find? p x = some former := here ▸ request.stored
    rcases request.entries standard member with kept | given
    · exact (congrArg P kept).mpr (stored former there declared)
    · exact (congrArg P given).mpr (submitted c rfl here (request.sameType ▸ declared))
  | @marked _ former c' _ _ r request _ =>
    have kept := request.hooked.kept standard
    have declared : q ∈ former.conceptType.containment := kept.conceptType ▸ member
    have same : c'.entries q = former.entries q := Concept.entries_congr (kept.lists q declared)
    exact (congrArg P same).mpr (stored former request.stored declared)

/-- What is stored after an operation follows a rule, wherever it comes from. -/
theorem Origin.entries {operation : Operation} {c : Concept} (rule : ListRule P)
    (standard : env.registry = Registry.standard) (forest : Forest (d.find? p))
    (stored : ∀ c, d.find? p x = some c → q ∈ c.conceptType.containment → P (c.entries q))
    (submitted : ∀ c, operation = .update c → c.id = x → q ∈ c.conceptType.containment →
      P (c.entries q))
    (origin : Origin env p d x operation c) (member : q ∈ c.conceptType.containment) :
    P (c.entries q) := by
  cases origin with
  | kept before => exact stored c before member
  | handled own => exact own.entries rule standard stored submitted member
  | @entered child c' parent extended _ _ r before request attached =>
    obtain ⟨-, type, -⟩ := Concept.bare_eq_iff.mp
      (attach_complete (forest.complete _ _ before) attached).1
    have member : q ∈ parent.conceptType.containment := type ▸ member
    show P (extended.entries q)
    refine attach_entries rule (forest.complete _ _ before) attached (fun listed => ?_) member
      (stored parent before member)
    -- what is listed is stored, and the child is new
    obtain ⟨former, there, -⟩ := outlines_eq_some_iff.mp ((forest.listed _ _ before q member _).mp listed)
    have there : d.find? p c'.id = some former := there
    rw [(request.child standard).1, request.fresh] at there
    cases there
  | @left id _ parent r before =>
    have declared : q ∈ parent.conceptType.containment := parent.detach_conceptType id ▸ member
    exact rule.thinned _ _ (Concept.entries_detach declared) (stored parent before declared)

/-- Setting a property of the lifecycle leaves the containment lists alone. -/
theorem entries_setProperty_lifecycle {s : Concept} {name : String} {value : PropertyValue}
    (lifecycle : name ∈ Lifecycle.properties) (member : q ∈ s.conceptType.containment) :
    (s.setProperty name value).entries q = s.entries q :=
  Concept.entries_congr
    (Concept.property?_setProperty_ne s value (Lifecycle.containment_ne member lifecycle))

/-- Every operation keeps a containment list to a rule, if the updates that wait do. -/
theorem Effect.follows {r : Partition} {operation : Operation}
    {waiting : List (Partition × Operation)} {cascades : List Cascade} (rule : ListRule P)
    (standard : env.registry = Registry.standard) (forests : d.Forested)
    (follows : Follows P p x q d.find? ((r, operation) :: waiting))
    (effect : Effect env r d operation cascades d') :
    Follows P p x q d'.find? (waiting ++ cascades.map (place r)) := by
  have stored : ∀ c, d'.find? p x = some c → q ∈ c.conceptType.containment → P (c.entries q) := by
    intro c there member
    by_cases here : p = r
    · subst here
      refine (effect.origin standard (forests p) there).entries rule standard (forests p)
        follows.stored (fun u same => ?_) member
      subst same
      exact follows.waiting u List.mem_cons_self
    · rw [effect.elsewhere here] at there
      exact follows.stored c there member
  refine ⟨stored, fun c member id declared => ?_⟩
  rcases List.mem_append.mp member with before | caused
  · exact follows.waiting c (List.mem_cons_of_mem _ before) id declared
  · obtain ⟨rfl, s, name, value, there, lifecycle, rfl⟩ :=
      (effect.caused standard (forests r)).update (effect.forested standard forests r) caused
    have id : s.id = x := id
    have declared : q ∈ s.conceptType.containment := declared
    rw [entries_setProperty_lifecycle lifecycle declared]
    exact stored s (id ▸ there) declared

end Batch

namespace Memory

open ConceptLedger.Concept

/-- After every history under the standard registry, a containment list follows a rule if the lists
that updates of its concept submitted do. -/
theorem follows_after {P : List (ConceptId × Option Int64) → Prop} (rule : ListRule P)
    {visits : List Visit} (standard : ∀ v ∈ visits, v.policy.registry = Registry.standard)
    {p : Partition} {x : ConceptId} {q : Containment}
    (submitted : ∀ u, Submitted visits p (.update u) → u.id = x → P (u.entries q)) :
    Follows P p x q (Database.after visits).contents.find? [] := by
  refine after_keeps_queue standard ⟨fun _ none => (nomatch none), fun _ none => (nomatch none)⟩ ?_ ?_
  · intro f r operation entered follows
    refine ⟨follows.stored, fun c member id _ => ?_⟩
    cases List.mem_singleton.mp member
    exact submitted c entered id
  · intro env d d' r operation waiting cascades registry forests follows effect
    exact effect.follows rule registry forests follows

/-- After every history under the standard registry, a containment list names a child twice, gives
an order key twice or is not sorted by its keys only if an update of the concept submitted a list
that does the same. -/
theorem lists_after (visits : List Visit)
    (standard : ∀ v ∈ visits, v.policy.registry = Registry.standard) {p : Partition} {x : ConceptId}
    {c : Concept} {q : Containment}
    (stored : (Database.after visits).contents.find? p x = some c)
    (member : q ∈ c.conceptType.containment) :
    ((∀ u, Submitted visits p (.update u) → u.id = x → (u.members q).Nodup) →
      (c.members q).Nodup) ∧
    ((∀ u, Submitted visits p (.update u) → u.id = x → (u.keys q).Nodup) → (c.keys q).Nodup) ∧
    ((∀ u, Submitted visits p (.update u) → u.id = x → (u.keys q).Pairwise (· < ·)) →
      (c.keys q).Pairwise (· < ·)) := by
  refine ⟨fun submitted => ?_, fun submitted => ?_, fun submitted => ?_⟩
  · exact (follows_after ListRule.children standard submitted).stored c stored member
  · exact (follows_after ListRule.keys standard submitted).stored c stored member
  · exact (follows_after ListRule.ascending standard submitted).stored c stored member

/-- The visit that puts an element with two definitions into a model and updates the list of these
definitions. -/
def relisting (items : List OrderedItem) : Visit :=
  .batch {}
    { context := ⟨"relisting", none⟩
      actor := foundingRequest.actor
      partition := .model (.ofNat 2)
      operations := [
        .create { id := .ofNat 2, conceptType := .engineeringModel } none,
        .create { id := .ofNat 3, conceptType := .iteration, container := some (.ofNat 2) } none,
        .create { id := .ofNat 4, conceptType := .elementDefinition, container := some (.ofNat 3) }
          none,
        .create { id := .ofNat 5, conceptType := .definition, container := some (.ofNat 4) } none,
        .create { id := .ofNat 6, conceptType := .definition, container := some (.ofNat 4) } none,
        .update (Concept.setProperty
          { id := .ofNat 4, conceptType := .elementDefinition, container := some (.ofNat 3) }
          Property.definition (.orderedRefList items))] }
    default ⟨.ofNat, 7⟩

/-- The ordered list of definitions in an element. -/
def definitions : Containment := ⟨Property.definition, .definition, true⟩

theorem submitted_relisting {items : List OrderedItem} {p : Partition} {u : Concept}
    (submitted : Submitted [relisting items] p (.update u)) :
    u.entries definitions = items.map entryOf := by
  obtain ⟨policy, request, now, ids, member, -, inside⟩ := submitted
  cases List.mem_singleton.mp member
  have same : u = Concept.setProperty
      { id := .ofNat 4, conceptType := .elementDefinition, container := some (.ofNat 3) }
      Property.definition (.orderedRefList items) := by simpa using inside
  exact same ▸ entries_setProperty_ordered _ definitions items

theorem stored_relisting (items : List OrderedItem)
    (found : ((Database.after [relisting items]).contents.find? (.model (.ofNat 2)) (.ofNat 4)).any
      (fun c => c.conceptType = .elementDefinition ∧
        c.entries definitions = items.map entryOf) = true) :
    ∃ c, (Database.after [relisting items]).contents.find? (.model (.ofNat 2)) (.ofNat 4) = some c ∧
      definitions ∈ c.conceptType.containment ∧ c.entries definitions = items.map entryOf := by
  obtain ⟨c, here, kind, listed⟩ := stored_of_any found
  exact ⟨c, here, by rw [kind]; exact List.mem_cons_self, listed⟩

/-- An update that reorders the definitions of an element and gives them new keys. -/
theorem lists_after_relisting : ∃ c,
    (Database.after [relisting [⟨1, .ofNat 6⟩, ⟨4, .ofNat 5⟩]]).contents.find? (.model (.ofNat 2))
      (.ofNat 4) = some c ∧
    c.entries definitions = [(.ofNat 6, some 1), (.ofNat 5, some 4)] ∧
    (c.members definitions).Nodup ∧ (c.keys definitions).Nodup ∧
    (c.keys definitions).Pairwise (· < ·) := by
  obtain ⟨c, stored, member, listed⟩ :=
    stored_relisting [⟨1, .ofNat 6⟩, ⟨4, .ofNat 5⟩] (by decide +kernel)
  have lists := lists_after [relisting [⟨1, .ofNat 6⟩, ⟨4, .ofNat 5⟩]]
    (fun v member => List.mem_singleton.mp member ▸ rfl) stored member
  refine ⟨c, stored, listed, lists.1 fun u submitted _ => ?_, lists.2.1 fun u submitted _ => ?_,
    lists.2.2 fun u submitted _ => ?_⟩
  · rw [Concept.members, submitted_relisting submitted]
    decide
  · rw [Concept.keys, submitted_relisting submitted]
    decide
  · rw [Concept.keys, submitted_relisting submitted]
    decide

/-- An update that lists a child twice, and two children under one key, is accepted. -/
theorem lists_after_doubling :
    (∀ v ∈ [relisting [⟨7, .ofNat 5⟩, ⟨7, .ofNat 6⟩, ⟨7, .ofNat 5⟩]],
      v.policy.registry = Registry.standard) ∧
    ∃ c, (Database.after [relisting [⟨7, .ofNat 5⟩, ⟨7, .ofNat 6⟩, ⟨7, .ofNat 5⟩]]).contents.find?
        (.model (.ofNat 2)) (.ofNat 4) = some c ∧
      definitions ∈ c.conceptType.containment ∧ ¬ (c.members definitions).Nodup ∧
      ¬ (c.keys definitions).Pairwise (· < ·) := by
  refine ⟨fun v member => List.mem_singleton.mp member ▸ rfl, ?_⟩
  obtain ⟨c, stored, member, listed⟩ :=
    stored_relisting [⟨7, .ofNat 5⟩, ⟨7, .ofNat 6⟩, ⟨7, .ofNat 5⟩] (by decide +kernel)
  refine ⟨c, stored, member, ?_, ?_⟩
  · rw [Concept.members, listed]
    decide
  · rw [Concept.keys, listed]
    decide

end Memory

end ConceptLedger
