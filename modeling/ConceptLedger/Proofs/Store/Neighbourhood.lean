import ConceptLedger.Proofs.Concept.Lists
import ConceptLedger.Proofs.Lifecycle.OneWay

/-!
The neighbourhood of an operation. Every operation that is executed was allowed on the concept that it
is about, and changes nothing but this concept, what is contained in it when it is deleted for good, and
the revision of its container with the one list that names it there.
-/

namespace ConceptLedger

/-- The right to write does not depend on containment lists. -/
theorem ScopeDefaults.canWrite_withoutChildren (defaults : ScopeDefaults) (actor : Actor) (c : Concept)
    (kind : OperationKind) (p : Partition) (security : SecurityContext) :
    defaults.gate.canWrite actor c.withoutChildren kind p security =
      defaults.gate.canWrite actor c kind p security := by
  have override : c.withoutChildren.accessOverride = c.accessOverride :=
    (Concept.bare_eq_iff.mp (Concept.withoutChildren_bare c)).2.2.2.2
  have owner : c.withoutChildren.ref? Property.owner = c.ref? Property.owner := by
    unfold Concept.ref?
    rw [Concept.property?_withoutChildren_other]
    cases c.conceptType <;> decide
  simp only [gate, admits, ownedBy, override, owner, Concept.withoutChildren_conceptType]

namespace Batch

open Lifecycle Forest

variable {env : Setting} {p : Partition} {d d' : Draft}

/-- The state on which an operation has to be allowed: that of a new concept without children, and
otherwise the stored one. -/
def Draft.target? (d : Draft) (p : Partition) : Operation → Option Concept
  | .create c _ => some c.withoutChildren
  | .update c => d.find? p c.id
  | .delete id _ => d.find? p id

/-- The gate lets the actor do something to a concept, in the context of its stored container. -/
def Lets (env : Setting) (p : Partition) (d : Draft) (kind : OperationKind) (c : Concept) : Prop :=
  env.gate.canWrite env.actor c kind p
    (env.gate.contextFor env.actor p (c.container.bind (d.find? p))) = true

/-- An operation is allowed on the state of its concept. Where roles decide, a creation is so with the
children that were submitted too. -/
structure Allowed (env : Setting) (p : Partition) (d : Draft) (operation : Operation) : Prop where
  target : ∃ c, d.target? p operation = some c ∧ Lets env p d operation.kind c
  payload : ∀ c orderKey, operation = .create c orderKey →
    ∀ defaults : ScopeDefaults, env.gate = defaults.gate → Lets env p d .create c

theorem Draft.Houses.container {c : Concept} {container : Option Concept}
    (housed : d.Houses p c container) : container = c.container.bind (d.find? p) := by
  cases container with
  | none =>
    obtain ⟨-, alone⟩ := housed
    rw [alone]
    rfl
  | some parent =>
    obtain ⟨-, ⟨id, named, there⟩, -⟩ := housed
    rw [named]
    exact there.symm

theorem CreateRequest.lets {c c' : Concept} {container : Option Concept} {before : HookOutcome}
    (request : CreateRequest env p d c container c' before) : Lets env p d .create c.withoutChildren := by
  unfold Lets
  rw [Concept.withoutChildren_container, ← request.housed.container]
  exact request.allowed

theorem UpdateRequest.lets {c former c₁ c' : Concept} {container : Option Concept}
    {before : HookOutcome} (request : UpdateRequest env p d c former c₁ container c' before) :
    Lets env p d .update former := by
  unfold Lets
  rw [← request.within]
  exact request.allowed

theorem DeleteRequest.lets {id : ConceptId} {t : ConceptType} {former c' : Concept}
    {container : Option Concept} {before : HookOutcome}
    (request : DeleteRequest env p d id t former container c' before) : Lets env p d .delete former := by
  unfold Lets
  rw [← request.within]
  exact request.allowed

/-- Whatever is executed was allowed. -/
theorem Effect.allowed {operation : Operation} {cascades : List Cascade}
    (effect : Effect env p d operation cascades d') : Allowed env p d operation := by
  cases effect with
  | @create c orderKey _ _ effect =>
    have lets : Lets env p d .create c.withoutChildren := by
      cases effect with
      | skipped request | stored request => exact request.lets
    refine ⟨⟨_, rfl, lets⟩, fun c' orderKey' same defaults roles => ?_⟩
    cases same
    unfold Lets at lets ⊢
    rw [roles] at lets ⊢
    rwa [ScopeDefaults.canWrite_withoutChildren, Concept.withoutChildren_container] at lets
  | update effect =>
    refine ⟨?_, nofun⟩
    cases effect with
    | skipped request | unchanged request | stored request => exact ⟨_, request.stored, request.lets⟩
  | delete effect =>
    refine ⟨?_, nofun⟩
    cases effect with
    | skipped request | kept request | marked request | removed request =>
      exact ⟨_, request.stored, request.lets⟩

/-- A container with another list for one type and a new revision, and otherwise as it was. -/
def Relists (q : Containment) (r : UInt64) (parent parent' : Concept) : Prop :=
  ∃ value, parent' = { parent.setProperty q.name value with revisionNumber := r }

/-- How far an operation reaches. A new concept comes to those that are stored, and its container, if
it has one, lists it besides. An update puts the submitted state in place, with the stored lists, unless
it is the stored state. A frozen iteration setup is marked once when it is to be deleted; everything else
goes with what is contained in it, and its container does not list it any more. -/
inductive Reach (p : Partition) (d : Draft) : Operation → Draft → Prop
  | founded {c c' : Concept} {orderKey : Option Int64} {d' : Draft} (fresh : d.find? p c.id = none)
      (alone : c.container = none) (id : c'.id = c.id) (outline : c'.outline = c.outline)
      (store : d'.find? p = Forest.place (d.find? p) { c' with revisionNumber := d.revision p }) :
      Reach p d (.create c orderKey) d'
  | entered {c c' parent parent' : Concept} {orderKey : Option Int64} {q : Containment} {d' : Draft}
      (fresh : d.find? p c.id = none) (container : c.container = some parent.id)
      (there : d.find? p parent.id = some parent)
      (declared : parent.conceptType.containmentFor? c.conceptType = some q)
      (id : c'.id = c.id) (outline : c'.outline = c.outline)
      (relists : Relists q (d.revision p) parent parent')
      (inserted : Concept.Inserted q c.id orderKey (parent.entries q) (parent'.entries q))
      (store : d'.find? p =
        Forest.place (Forest.place (d.find? p) { c' with revisionNumber := d.revision p }) parent') :
      Reach p d (.create c orderKey) d'
  | updated {c former c₁ : Concept} {d' : Draft} (stored : d.find? p c.id = some former)
      (children : Concept.withStoredChildren former c = .ok c₁)
      (changed : c₁.sameStateAs former = false)
      (store : d'.find? p = Forest.place (d.find? p) { c₁ with revisionNumber := d.revision p }) :
      Reach p d (.update c) d'
  | unchanged {c former c₁ : Concept} (stored : d.find? p c.id = some former)
      (children : Concept.withStoredChildren former c = .ok c₁)
      (same : c₁.sameStateAs former = true) : Reach p d (.update c) d
  | marked {id : ConceptId} {former : Concept} {d' : Draft} (stored : d.find? p id = some former)
      (kind : former.conceptType = .iterationSetup) (frozen : isFrozen former = true)
      (unmarked : former.isSoftDeleted = false)
      (store : d'.find? p = Forest.place (d.find? p)
        { former.setProperty Property.isDeleted (.bool true) with revisionNumber := d.revision p }) :
      Reach p d (.delete id former.conceptType) d'
  | skipped {id : ConceptId} {former : Concept} (stored : d.find? p id = some former)
      (kind : former.conceptType = .iterationSetup) (frozen : isFrozen former = true)
      (marked : former.isSoftDeleted = true) :
      Reach p d (.delete id former.conceptType) d
  | felled {id : ConceptId} {former : Concept} {d' : Draft} (stored : d.find? p id = some former)
      (warm : former.conceptType = .iterationSetup → isFrozen former = false)
      (alone : former.container = none) (store : d'.find? p = Forest.cut (d.find? p) id) :
      Reach p d (.delete id former.conceptType) d'
  | left {id : ConceptId} {former parent parent' : Concept} {q : Containment} {d' : Draft}
      (stored : d.find? p id = some former)
      (warm : former.conceptType = .iterationSetup → isFrozen former = false)
      (container : former.container = some parent.id) (there : d.find? p parent.id = some parent)
      (outside : ¬ Outline.Within (outlines (d.find? p)) id parent.id)
      (declared : parent.conceptType.containmentFor? former.conceptType = some q)
      (relists : Relists q (d.revision p) parent parent')
      (entries : parent'.entries q = (parent.entries q).filter (·.1 ≠ id))
      (store : d'.find? p = Forest.place (Forest.cut (d.find? p) id) parent') :
      Reach p d (.delete id former.conceptType) d'

/-- The creation of a concept under a container, with all that is known of it: what was checked, how the
container lists the concept, what is stored, and the hooks that have been asked after it. -/
structure Joined (env : Setting) (p : Partition) (d : Draft) (c : Concept) (orderKey : Option Int64)
    (cascades : List Cascade) (d' : Draft) (c' parent parent' : Concept) (q : Containment) : Prop where
  request : CreateRequest env p d c (some parent) c' {}
  container : c.container = some parent.id
  there : d.find? p parent.id = some parent
  declared : parent.conceptType.containmentFor? c.conceptType = some q
  relists : Relists q (d.revision p) parent parent'
  inserted : Concept.Inserted q c.id orderKey (parent.entries q) (parent'.entries q)
  store : d'.find? p =
    Forest.place (Forest.place (d.find? p) { c' with revisionNumber := d.revision p }) parent'
  hooked : ∃ c'' after, cascades = after.cascades ∧
    Hooked env p d' (env.gate.contextFor env.actor p (some parent)) .afterCreate
      { c' with revisionNumber := d.revision p } (some parent') c'' after

section Reaches

variable (standard : env.registry = Registry.standard) (forest : Forest (d.find? p))

include standard forest

/-- What is not a root is created under its container. -/
theorem CreateEffect.joined {c : Concept} {orderKey : Option Int64} {cascades : List Cascade}
    (inner : c.conceptType.isRoot = false) (effect : CreateEffect env p d c orderKey cascades d') :
    ∃ c' parent parent' q, Joined env p d c orderKey cascades d' c' parent parent' q := by
  cases effect with
  | skipped request skip =>
    obtain rfl := request.hooked.create_ok standard
    cases skip
  | @stored container container' c' c'' _ after _ request _ _ _ entered hooked =>
    obtain rfl := request.hooked.create_ok standard
    obtain ⟨id, outline, -⟩ := request.child standard
    have housed := request.housed
    cases entered with
    | root => cases inner.symm.trans housed.1
    | @under parent extended attached _ =>
      obtain ⟨-, ⟨y, container, there⟩, -⟩ := housed
      obtain rfl := forest.keyed _ _ there
      obtain ⟨q, declared, target, value, list, rfl⟩ := Concept.attach_ok attached
      have shaped := (Concept.checkShape_ok_iff.mp (forest.complete _ _ there).shape).1 q declared
      have inserted := Concept.extendedList_inserted shaped list
      have type : c'.conceptType = c.conceptType := congrArg Outline.conceptType outline
      exact ⟨c', parent, _, q,
        { request, container, there
          declared := ConceptType.containmentFor?_eq_some_iff.mpr ⟨declared, target.trans type⟩
          relists := ⟨value, rfl⟩
          inserted := id ▸ inserted
          store := by rw [find?_put_same, find?_put_same, find?_allot_eq]
          hooked := ⟨c'', after, rfl, hooked⟩ }⟩

theorem CreateEffect.reach {c : Concept} {orderKey : Option Int64} {cascades : List Cascade}
    (effect : CreateEffect env p d c orderKey cascades d') : Reach p d (.create c orderKey) d' := by
  cases root : c.conceptType.isRoot with
  | false =>
    obtain ⟨c', parent, parent', q, joined⟩ := effect.joined standard forest root
    obtain ⟨id, outline, -⟩ := joined.request.child standard
    exact .entered joined.request.fresh joined.container joined.there joined.declared id outline
      joined.relists joined.inserted joined.store
  | true =>
    cases effect with
    | skipped request skip =>
      obtain rfl := request.hooked.create_ok standard
      cases skip
    | stored request _ _ _ entered _ =>
      obtain ⟨id, outline, -⟩ := request.child standard
      have housed := request.housed
      cases entered with
      | root =>
        refine .founded request.fresh housed.2 id outline ?_
        rw [find?_put_same, find?_allot_eq]
      | under => cases root.symm.trans housed.1

omit forest in
theorem UpdateEffect.reach {c : Concept} {cascades : List Cascade}
    (effect : UpdateEffect env p d c cascades d') : Reach p d (.update c) d' := by
  cases effect with
  | skipped request skip =>
    obtain ⟨-, rfl, -⟩ := request.hooked.update_ok standard
    cases skip
  | unchanged request _ same =>
    obtain ⟨rfl, -⟩ := request.hooked.update_ok standard
    exact .unchanged request.stored request.children same
  | stored request _ changed =>
    obtain ⟨rfl, -⟩ := request.hooked.update_ok standard
    refine .updated request.stored request.children changed ?_
    rw [find?_put_same, find?_allot_eq]

omit standard in
/-- In a forest a container that loses a child changes only in the list for the child's type. -/
theorem detach_relists {former parent : Concept} {r : UInt64} (stored : d.find? p former.id = some former)
    (container : former.container = some parent.id) (there : d.find? p parent.id = some parent) :
    ∃ q, parent.conceptType.containmentFor? former.conceptType = some q ∧
      Relists q r parent { parent.detach former.id with revisionNumber := r } ∧
      ({ parent.detach former.id with revisionNumber := r } : Concept).entries q =
        (parent.entries q).filter (·.1 ≠ former.id) := by
  obtain ⟨parent', q, there', fits⟩ := forest.container_stored stored container
  cases there.symm.trans there'
  obtain ⟨declared, target⟩ := ConceptType.containmentFor?_eq_some_iff.mp fits
  obtain ⟨value, held⟩ := Option.isSome_iff_exists.mp ((forest.complete _ _ there).lists q declared)
  have alone : ∀ q' ∈ parent.conceptType.containment, q' ≠ q → former.id ∉ parent.members q' := by
    intro q' declared' other listed
    obtain ⟨former', stored', outline⟩ :=
      outlines_eq_some_iff.mp ((forest.listed _ _ there q' declared' former.id).mp listed)
    cases stored.symm.trans stored'
    have targets : former.conceptType = q'.target := congrArg Outline.conceptType outline
    exact other (Concept.containment_eq_of_target declared' declared (targets.symm.trans target.symm))
  refine ⟨q, fits, ⟨Concept.withoutChild former.id value, ?_⟩, Concept.entries_detach_eq declared⟩
  rw [Concept.detach_eq declared held alone]

omit forest in
/-- How the rules decide about a deletion. -/
theorem DeleteRequest.decided {id : ConceptId} {t : ConceptType} {former c' : Concept}
    {container : Option Concept} {before : HookOutcome}
    (request : DeleteRequest env p d id t former container c' before) :
    (before.directive = .proceed ∧ (former.conceptType = .iterationSetup → isFrozen former = false)) ∨
    (before.directive = .skip ∧ former.conceptType = .iterationSetup ∧ isFrozen former = true ∧
      former.isSoftDeleted = true) ∨
    (before.directive = .convertToUpdate ∧ former.conceptType = .iterationSetup ∧
      isFrozen former = true ∧ former.isSoftDeleted = false ∧
      c' = former.setProperty Property.isDeleted (.bool true)) := by
  obtain ⟨others, setup⟩ := request.hooked.delete_ok standard
  by_cases kind : former.conceptType = .iterationSetup
  · obtain ⟨-, ⟨warm, rfl, -⟩ | ⟨frozen, rfl, -, marked⟩ | ⟨frozen, rfl, rfl, unmarked⟩⟩ := setup kind
    · exact .inl ⟨rfl, fun _ => warm⟩
    · exact .inr (.inl ⟨rfl, kind, frozen, marked⟩)
    · exact .inr (.inr ⟨rfl, kind, frozen, unmarked, rfl⟩)
  · obtain ⟨-, rfl⟩ := others kind
    exact .inl ⟨rfl, fun setup => absurd setup kind⟩

theorem DeleteEffect.reach {id : ConceptId} {t : ConceptType} {cascades : List Cascade}
    (effect : DeleteEffect env p d id t cascades d') : Reach p d (.delete id t) d' := by
  cases effect with
  | skipped request skip =>
    rw [← request.sameType]
    rcases request.decided standard with ⟨proceed, -⟩ | ⟨-, kind, frozen, marked⟩ | ⟨convert, -⟩
    · cases proceed.symm.trans skip
    · exact .skipped request.stored kind frozen marked
    · cases convert.symm.trans skip
  | kept request convert same _ =>
    rcases request.decided standard with ⟨proceed, -⟩ | ⟨skip, -⟩ | ⟨-, -, -, unmarked, rfl⟩
    · cases proceed.symm.trans convert
    · cases skip.symm.trans convert
    · cases (marked_of_sameStateAs same).symm.trans unmarked
  | marked request convert _ _ _ _ =>
    rw [← request.sameType]
    rcases request.decided standard with ⟨proceed, -⟩ | ⟨skip, -⟩ | ⟨-, kind, frozen, unmarked, rfl⟩
    · cases proceed.symm.trans convert
    · cases skip.symm.trans convert
    · refine .marked request.stored kind frozen unmarked ?_
      rw [find?_put_same, find?_allot_eq]
  | @removed former _ _ _ _ _ _ _ _ _ request proceed _ listed removed left _ =>
    have stored := request.stored
    obtain rfl := forest.keyed _ _ stored
    rw [← request.sameType]
    rcases request.decided standard with ⟨-, warm⟩ | ⟨skip, -⟩ | ⟨convert, -⟩
    · have cutOff := left.cutOff forest stored request.within (removed.cut forest stored listed)
      generalize same : d'.find? p = f at cutOff
      cases cutOff with
      | root alone => exact .felled stored warm alone same
      | under container there outside =>
        obtain ⟨q, declared, relists, entries⟩ := detach_relists forest stored container there
        exact .left stored warm container there outside declared relists entries same
    · cases skip.symm.trans proceed
    · cases convert.symm.trans proceed

/-- Every operation stays within its reach. -/
theorem Effect.reach {operation : Operation} {cascades : List Cascade}
    (effect : Effect env p d operation cascades d') : Reach p d operation d' := by
  cases effect with
  | create effect => exact effect.reach standard forest
  | update effect => exact effect.reach standard
  | delete effect => exact effect.reach standard forest

end Reaches

end Batch

namespace Memory

open Batch

/-- After every history under the standard registry, an operation that is executed in a partition while
a batch is applied, be it submitted or a cascade, was allowed on its concept. It leaves the other
partitions as they are and stays within its reach in its own. -/
theorem operations_confined (visits : List Visit)
    (standard : ∀ v ∈ visits, v.policy.registry = Registry.standard) (env : Setting)
    (registry : env.registry = Registry.standard) (start : Draft)
    (reached : start.contents = (Database.after visits).contents) (s t : Batch.State View)
    (queue : List (Partition × Operation)) (underway : Underway env start s.draft queue)
    (p : Partition) (operation : Operation) (cascades : List Cascade)
    (run : execute env p operation s = (.ok cascades, t)) :
    Allowed env p s.draft operation ∧ (∀ q, q ≠ p → t.draft.find? q = s.draft.find? q) ∧
      Reach p s.draft operation t.draft := by
  have effect := execute_ok run
  have forests := (underway.midway registry ((settled_after visits standard).midway reached)).forests
  exact ⟨effect.allowed, fun q other => effect.elsewhere other, effect.reach registry (forests p)⟩

/-- A first library for the directory that was founded. -/
def firstLibrary : Concept where
  id := .ofNat 3
  conceptType := .siteReferenceDataLibrary
  container := some (.ofNat 2)

/-- It is created there. -/
theorem operations_confined_founding : ∃ t : Batch.State View,
    (∀ v ∈ [founding], v.policy.registry = Registry.standard) ∧
    execute (({} : Policy).settingFor foundingRequest.actor) .siteDirectory (.create firstLibrary none)
      (Database.after [founding]).underway = (.ok [], t) ∧
    Allowed (({} : Policy).settingFor foundingRequest.actor) .siteDirectory
      (Database.after [founding]).underway.draft (.create firstLibrary none) ∧
    Reach .siteDirectory (Database.after [founding]).underway.draft (.create firstLibrary none)
      t.draft := by
  have standard : ∀ v ∈ [founding], v.policy.registry = Registry.standard := by
    intro v member
    obtain rfl := List.mem_singleton.mp member
    rfl
  have succeeds : (execute (({} : Policy).settingFor foundingRequest.actor) .siteDirectory
      (.create firstLibrary none) (Database.after [founding]).underway).1.toOption = some [] := by
    decide +kernel
  have run := eq_of_toOption succeeds
  obtain ⟨allowed, -, reach⟩ := operations_confined [founding] standard
    (({} : Policy).settingFor foundingRequest.actor) rfl (Database.after [founding]).underway.draft rfl _ _
    [] .start .siteDirectory _ [] run
  exact ⟨_, standard, run, allowed, reach⟩

end Memory

end ConceptLedger
