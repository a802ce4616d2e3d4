import ConceptLedger.Proofs.Batch.Draft
import ConceptLedger.Proofs.Concept.Containment

/-!
What an executed operation did. Each operation has a request part, which says what was checked
before anything was stored, and an effect, which says how it ended: with the draft it left and the
cascades it caused. All later statements about operations are read off these effects.
-/

namespace ConceptLedger.Batch

open Step

/-- The answer that the hooks of a setting can give on a draft, whatever new identifiers they
draw. -/
def Hooked (env : Setting) (p : Partition) (d : Draft) (security : SecurityContext)
    (occasion : Occasion) (c : Concept) (container : Option Concept) (c' : Concept)
    (outcome : HookOutcome) : Prop :=
  ∃ s s' : State Memory.View, s.draft = d ∧
    invoke env p security occasion c container s = (.ok (c', outcome), s')

/-- The container under which a concept can be created: none for a root, and otherwise the stored
concept that it names, if its type can contain it. -/
def Draft.Houses (d : Draft) (p : Partition) (c : Concept) : Option Concept → Prop
  | none => c.conceptType.isRoot = true ∧ c.container = none
  | some parent => c.conceptType.isRoot = false ∧
      (∃ id, c.container = some id ∧ d.find? p id = some parent) ∧
      (parent.conceptType.containmentFor? c.conceptType).isSome = true

/-- Whether the associations of a state refer to stored concepts of the declared types, as far as
they are not as they were. -/
def Draft.Targets (d : Draft) (p : Partition) (c : Concept) (former : Option Concept) : Prop :=
  c.conceptType.associations.forM (requireTargetsOf (fun id => .ok (d.find? p id)) c former) = .ok ()

/-- What is checked before a concept is created, and what the hooks answer. -/
structure CreateRequest (env : Setting) (p : Partition) (d : Draft) (c : Concept)
    (container : Option Concept) (c' : Concept) (before : HookOutcome) : Prop where
  fresh : d.find? p c.id = none
  housed : d.Houses p c container
  shape : c.checkShape = .ok ()
  allowed : env.gate.canWrite env.actor c.withoutChildren .create p
    (env.gate.contextFor env.actor p container) = true
  hooked : Hooked env p d (env.gate.contextFor env.actor p container) .beforeCreate
    c.withoutChildren container c' before

/-- How a container is stored when a child has been entered. -/
inductive Entered (p : Partition) (d : Draft) (r : UInt64) (child : Concept)
    (orderKey : Option Int64) : Option Concept → Option Concept → Draft → Prop
  | root : Entered p d r child orderKey none none d
  | under {parent extended : Concept} (attached : parent.attach child orderKey = .ok extended)
      (present : (d.find? p parent.id).isSome = true) :
      Entered p d r child orderKey (some parent) (some { extended with revisionNumber := r })
        (d.put p { extended with revisionNumber := r } true)

/-- How the creation of a concept ends. -/
inductive CreateEffect (env : Setting) (p : Partition) (d : Draft) (c : Concept)
    (orderKey : Option Int64) : List Cascade → Draft → Prop
  | skipped {container : Option Concept} {c' : Concept} {before : HookOutcome}
      (request : CreateRequest env p d c container c' before)
      (skip : before.directive = .skip) : CreateEffect env p d c orderKey before.cascades d
  | stored {container container' : Option Concept} {c' c'' : Concept}
      {before after : HookOutcome} {d' : Draft}
      (request : CreateRequest env p d c container c' before)
      (targets : d.Targets p c' none)
      (room : d.allocated.find? p = none → d.contents.counter p < d.revision p)
      (absent : d.find? p c'.id = none)
      (entered : Entered p ((d.allot p).put p { c' with revisionNumber := d.revision p } false)
        (d.revision p) { c' with revisionNumber := d.revision p } orderKey container container' d')
      (hooked : Hooked env p d' (env.gate.contextFor env.actor p container) .afterCreate
        { c' with revisionNumber := d.revision p } container' c'' after) :
      CreateEffect env p d c orderKey (before.cascades ++ after.cascades) d'

/-- What is checked before a concept is updated, and what the hooks answer. The state `c₁` is the
submitted one with the stored containment lists. -/
structure UpdateRequest (env : Setting) (p : Partition) (d : Draft) (c former c₁ : Concept)
    (container : Option Concept) (c' : Concept) (before : HookOutcome) : Prop where
  stored : d.find? p c.id = some former
  sameType : former.conceptType = c.conceptType
  sameContainer : former.container = c.container
  current : d.isTouched ⟨p, c.id⟩ = true ∨ former.revisionNumber ≤ c.revisionNumber
  shape : c.checkShape = .ok ()
  children : Concept.withStoredChildren former c = .ok c₁
  within : container = former.container.bind (d.find? p)
  allowed : env.gate.canWrite env.actor former .update p
    (env.gate.contextFor env.actor p container) = true
  hooked : Hooked env p d (env.gate.contextFor env.actor p container) (.beforeUpdate former) c₁
    container c' before

/-- How the update of a concept ends. -/
inductive UpdateEffect (env : Setting) (p : Partition) (d : Draft) (c : Concept) :
    List Cascade → Draft → Prop
  | skipped {former c₁ c' : Concept} {container : Option Concept} {before : HookOutcome}
      (request : UpdateRequest env p d c former c₁ container c' before)
      (skip : before.directive = .skip) : UpdateEffect env p d c before.cascades d
  | unchanged {former c₁ c' : Concept} {container : Option Concept} {before : HookOutcome}
      (request : UpdateRequest env p d c former c₁ container c' before)
      (targets : d.Targets p c' (some former)) (same : c'.sameStateAs former = true) :
      UpdateEffect env p d c before.cascades d
  | stored {former c₁ c' c'' : Concept} {container : Option Concept} {before after : HookOutcome}
      (request : UpdateRequest env p d c former c₁ container c' before)
      (targets : d.Targets p c' (some former)) (changed : c'.sameStateAs former = false)
      (room : d.allocated.find? p = none → d.contents.counter p < d.revision p)
      (present : (d.find? p c'.id).isSome = true)
      (hooked : Hooked env p ((d.allot p).put p { c' with revisionNumber := d.revision p } true)
        (env.gate.contextFor env.actor p container) (.afterUpdate former)
        { c' with revisionNumber := d.revision p } container c'' after) :
      UpdateEffect env p d c (before.cascades ++ after.cascades)
        ((d.allot p).put p { c' with revisionNumber := d.revision p } true)

/-- What is checked before a concept is deleted, and what the hooks answer. -/
structure DeleteRequest (env : Setting) (p : Partition) (d : Draft) (id : ConceptId)
    (t : ConceptType) (former : Concept) (container : Option Concept) (c' : Concept)
    (before : HookOutcome) : Prop where
  stored : d.find? p id = some former
  sameType : former.conceptType = t
  within : container = former.container.bind (d.find? p)
  allowed : env.gate.canWrite env.actor former .delete p
    (env.gate.contextFor env.actor p container) = true
  hooked : Hooked env p d (env.gate.contextFor env.actor p container) (.beforeDelete former) former
    container c' before

/-- How concepts are removed one after the other, each of which is stored when its turn comes. -/
inductive Removed (p : Partition) : Draft → List (ConceptId × ConceptType) → Draft → Prop
  | done {d : Draft} : Removed p d [] d
  | next {d d' : Draft} {entry : ConceptId × ConceptType} {rest : List (ConceptId × ConceptType)}
      (present : (d.find? p entry.1).isSome = true) (later : Removed p (d.drop p entry) rest d') :
      Removed p d (entry :: rest) d'

/-- How a container is stored when a child has left it. -/
inductive Left (p : Partition) (d : Draft) (r : UInt64) (child : ConceptId) :
    Option Concept → Option Concept → Draft → Prop
  | root : Left p d r child none none d
  | under {parent : Concept} (present : (d.find? p parent.id).isSome = true) :
      Left p d r child (some parent) (some { parent.detach child with revisionNumber := r })
        (d.put p { parent.detach child with revisionNumber := r } true)

/-- How the deletion of a concept ends. -/
inductive DeleteEffect (env : Setting) (p : Partition) (d : Draft) (id : ConceptId)
    (t : ConceptType) : List Cascade → Draft → Prop
  | skipped {former c' : Concept} {container : Option Concept} {before : HookOutcome}
      (request : DeleteRequest env p d id t former container c' before)
      (skip : before.directive = .skip) : DeleteEffect env p d id t before.cascades d
  | kept {former c' c'' : Concept} {container : Option Concept} {before after : HookOutcome}
      (request : DeleteRequest env p d id t former container c' before)
      (convert : before.directive = .convertToUpdate) (same : c'.sameStateAs former = true)
      (hooked : Hooked env p d (env.gate.contextFor env.actor p container) (.afterDelete former) c'
        container c'' after) :
      DeleteEffect env p d id t (before.cascades ++ after.cascades) d
  | marked {former c' c'' : Concept} {container : Option Concept} {before after : HookOutcome}
      (request : DeleteRequest env p d id t former container c' before)
      (convert : before.directive = .convertToUpdate) (changed : c'.sameStateAs former = false)
      (room : d.allocated.find? p = none → d.contents.counter p < d.revision p)
      (present : (d.find? p c'.id).isSome = true)
      (hooked : Hooked env p ((d.allot p).put p { c' with revisionNumber := d.revision p } true)
        (env.gate.contextFor env.actor p container) (.afterDelete former)
        { c' with revisionNumber := d.revision p } container c'' after) :
      DeleteEffect env p d id t (before.cascades ++ after.cascades)
        ((d.allot p).put p { c' with revisionNumber := d.revision p } true)
  | removed {former c' c'' : Concept} {container container' : Option Concept}
      {before after : HookOutcome} {order : List (ConceptId × ConceptType)} {d₁ d' : Draft}
      (request : DeleteRequest env p d id t former container c' before)
      (proceed : before.directive = .proceed)
      (room : d.allocated.find? p = none → d.contents.counter p < d.revision p)
      (listed : subtree (d.allot p).view p former = .ok order)
      (removed : Removed p (d.allot p) order d₁)
      (left : Left p d₁ (d.revision p) former.id container container' d')
      (hooked : Hooked env p d' (env.gate.contextFor env.actor p container) (.afterDelete former) c'
        container' c'' after) :
      DeleteEffect env p d id t (before.cascades ++ after.cascades) d'

/-- How an operation ends. -/
inductive Effect (env : Setting) (p : Partition) (d : Draft) :
    Operation → List Cascade → Draft → Prop
  | create {c : Concept} {orderKey : Option Int64} {cascades : List Cascade} {d' : Draft}
      (effect : CreateEffect env p d c orderKey cascades d') :
      Effect env p d (.create c orderKey) cascades d'
  | update {c : Concept} {cascades : List Cascade} {d' : Draft}
      (effect : UpdateEffect env p d c cascades d') : Effect env p d (.update c) cascades d'
  | delete {id : ConceptId} {t : ConceptType} {cascades : List Cascade} {d' : Draft}
      (effect : DeleteEffect env p d id t cascades d') : Effect env p d (.delete id t) cascades d'

variable {env : Setting} {p : Partition} {s t : State Memory.View}

theorem containerFor_ok {c : Concept} {container : Option Concept}
    (run : containerFor p c s = (.ok container, t)) : s.draft.Houses p c container ∧ s = t := by
  unfold containerFor at run
  cases root : c.conceptType.isRoot <;> cases named : c.container <;> simp only [root, named] at run
  · exact absurd run fault_ne_ok
  · rename_i id
    obtain ⟨found, _, looked, rest⟩ := bind_eq_ok_iff.mp run
    obtain ⟨stored, rfl⟩ := find_ok looked
    cases found with
    | none => exact absurd rest fault_ne_ok
    | some parent =>
      dsimp only at rest
      split at rest
      · rename_i fits
        obtain ⟨rfl, rfl⟩ := pure_eq_ok_iff.mp rest
        exact ⟨⟨root, ⟨id, named, stored.symm⟩, fits⟩, rfl⟩
      · exact absurd rest fault_ne_ok
  · obtain ⟨rfl, rfl⟩ := pure_eq_ok_iff.mp run
    exact ⟨⟨root, named⟩, rfl⟩
  · exact absurd run fault_ne_ok

theorem requireTargets_ok {c : Concept} {former : Option Concept} {u : Unit}
    (run : requireTargets p c former s = (.ok u, t)) : s.draft.Targets p c former ∧ s = t := by
  obtain ⟨checked, rfl⟩ := look_eq_ok_iff.mp run
  rw [show ConceptStore.find? s.view p = fun id => .ok (s.draft.find? p id) from
    funext fun id => Memory.View.find?_eq s.view p id] at checked
  exact ⟨checked, rfl⟩

theorem authorize_ok {gate : Gate} {actor : Actor} {c : Concept} {kind : OperationKind}
    {security : SecurityContext} {u : Unit} (run : gate.authorize actor c kind p security = .ok u) :
    gate.canWrite actor c kind p security = true := by
  unfold Gate.authorize at run
  split at run
  · assumption
  · cases run

theorem enterChild_ok {r : UInt64} {child : Concept} {orderKey : Option Int64}
    {container container' : Option Concept}
    (run : enterChild p r child orderKey container s = (.ok container', t)) :
    Entered p s.draft r child orderKey container container' t.draft := by
  cases container with
  | none =>
    obtain ⟨rfl, rfl⟩ := pure_eq_ok_iff.mp run
    exact .root
  | some parent =>
    obtain ⟨_, s₁, touched, rest⟩ := bind_eq_ok_iff.mp run
    obtain ⟨extended, attached, rest⟩ := lift_bind_eq_ok_iff.mp rest
    obtain ⟨_, s₃, replaced, rest⟩ := bind_eq_ok_iff.mp rest
    obtain ⟨rfl, rfl⟩ := pure_eq_ok_iff.mp rest
    obtain ⟨present, draft⟩ := replace_ok replaced
    have marked := touch_ok touched
    obtain ⟨q, -, -, value, -, rfl⟩ := Concept.attach_ok attached
    rw [marked, Draft.find?_mark] at present
    rw [draft, marked]
    exact .under attached present

theorem storeNew_ok {c stored : Concept} {container container' : Option Concept}
    {orderKey : Option Int64}
    (run : storeNew p c container orderKey s = (.ok (stored, container'), t)) :
    stored = { c with revisionNumber := s.draft.revision p } ∧
      (s.draft.allocated.find? p = none →
        s.draft.contents.counter p < s.draft.revision p) ∧
      s.draft.find? p c.id = none ∧
      Entered p ((s.draft.allot p).put p stored false) (s.draft.revision p) stored orderKey container
        container' t.draft := by
  obtain ⟨r, s₁, owned, rest⟩ := bind_eq_ok_iff.mp run
  obtain ⟨rfl, allotted, room⟩ := ownRevision_ok owned
  obtain ⟨_, s₂, touched, rest⟩ := bind_eq_ok_iff.mp rest
  obtain ⟨done, s₃, tried, rest⟩ := bind_eq_ok_iff.mp rest
  obtain ⟨v, written, rfl⟩ := onView_ok tried
  split at rest
  · rename_i fresh
    cases fresh
    obtain ⟨container'', s₄, entered, rest⟩ := bind_eq_ok_iff.mp rest
    obtain ⟨same, rfl⟩ := pure_eq_ok_iff.mp rest
    cases same
    obtain ⟨absent, rfl⟩ := Memory.View.write_ok written
    have marked := touch_ok touched
    have absent : s₂.draft.find? p c.id = none := absent
    rw [marked, allotted, Draft.find?_mark, Draft.find?_allot] at absent
    have entered := enterChild_ok entered
    refine ⟨rfl, room, absent, ?_⟩
    have draft : ((s.draft.allot p).put p { c with revisionNumber := s.draft.revision p } false) =
        s₂.draft.edit (·.put p { c with revisionNumber := s.draft.revision p }) := by
      rw [Draft.put, ← allotted, ← marked]
    rw [draft]
    exact entered
  · exact absurd rest fault_ne_ok

theorem storeChanged_ok {former c c' : Concept} {written : Bool}
    (run : storeChanged p former c s = (.ok (c', written), t)) :
    (written = false ∧ c.sameStateAs former = true ∧ c' = c ∧ s = t) ∨
      (written = true ∧ c.sameStateAs former = false ∧
        c' = { c with revisionNumber := s.draft.revision p } ∧
        (s.draft.allocated.find? p = none →
          s.draft.contents.counter p < s.draft.revision p) ∧
        (s.draft.find? p c.id).isSome = true ∧
        t.draft = (s.draft.allot p).put p c' true) := by
  unfold storeChanged at run
  split at run
  · rename_i same
    obtain ⟨same', rfl⟩ := pure_eq_ok_iff.mp run
    cases same'
    exact .inl ⟨rfl, same, rfl, rfl⟩
  · rename_i differs
    obtain ⟨r, s₁, owned, rest⟩ := bind_eq_ok_iff.mp run
    obtain ⟨rfl, allotted, room⟩ := ownRevision_ok owned
    obtain ⟨_, s₂, touched, rest⟩ := bind_eq_ok_iff.mp rest
    obtain ⟨_, s₃, replaced, rest⟩ := bind_eq_ok_iff.mp rest
    obtain ⟨same, rfl⟩ := pure_eq_ok_iff.mp rest
    cases same
    obtain ⟨present, draft⟩ := replace_ok replaced
    have marked := touch_ok touched
    rw [marked, allotted, Draft.find?_mark, Draft.find?_allot] at present
    refine .inr ⟨rfl, by simpa using differs, rfl, room, present, ?_⟩
    rw [draft, marked, allotted, Draft.put]

theorem create_ok {c : Concept} {orderKey : Option Int64} {cascades : List Cascade}
    (run : create env p c orderKey s = (.ok cascades, t)) :
    CreateEffect env p s.draft c orderKey cascades t.draft := by
  obtain ⟨found, _, looked, rest⟩ := bind_eq_ok_iff.mp run
  obtain ⟨fresh, rfl⟩ := find_ok looked
  cases found with
  | some _ => exact absurd rest fault_ne_ok
  | none =>
    obtain ⟨container, _, named, rest⟩ := bind_eq_ok_iff.mp rest
    obtain ⟨housed, rfl⟩ := containerFor_ok named
    obtain ⟨_, shape, rest⟩ := lift_bind_eq_ok_iff.mp rest
    obtain ⟨_, allowed, rest⟩ := lift_bind_eq_ok_iff.mp rest
    obtain ⟨⟨c', before⟩, s₁, asked, rest⟩ := bind_eq_ok_iff.mp rest
    have kept := invoke_draft asked
    have request : CreateRequest env p s.draft c container c' before :=
      ⟨fresh.symm, housed, shape, authorize_ok allowed, s, s₁, rfl, asked⟩
    dsimp only at rest
    split at rest
    · rename_i skip
      obtain ⟨rfl, rfl⟩ := pure_eq_ok_iff.mp rest
      rw [kept]
      exact .skipped request skip
    · obtain ⟨_, s₂, required, rest⟩ := bind_eq_ok_iff.mp rest
      obtain ⟨targets, rfl⟩ := requireTargets_ok required
      obtain ⟨⟨stored, container'⟩, s₃, written, rest⟩ := bind_eq_ok_iff.mp rest
      obtain ⟨rfl, room, absent, entered⟩ := storeNew_ok written
      obtain ⟨⟨c'', after⟩, s₄, asked', rest⟩ := bind_eq_ok_iff.mp rest
      obtain ⟨rfl, rfl⟩ := pure_eq_ok_iff.mp rest
      rw [kept] at targets room absent entered asked'
      rw [invoke_draft asked']
      exact .stored request targets room absent entered ⟨s₃, s₄, rfl, asked'⟩

theorem expectType_ok {c : Concept} {kind : ConceptType} {u : Unit}
    (run : expectType c kind = .ok u) : c.conceptType = kind := by
  unfold expectType at run
  split at run
  · assumption
  · cases run

theorem expectContainer_ok {former c : Concept} {u : Unit}
    (run : expectContainer former c = .ok u) : former.container = c.container := by
  unfold expectContainer at run
  split at run
  · assumption
  · cases run

theorem expectRevision_ok {former c : Concept} {u : Unit}
    (run : expectRevision p former c s = (.ok u, t)) :
    (s.draft.isTouched ⟨p, c.id⟩ = true ∨ former.revisionNumber ≤ c.revisionNumber) ∧ s = t := by
  obtain ⟨checked, rfl⟩ := look_eq_ok_iff.mp run
  refine ⟨?_, rfl⟩
  split at checked
  · cases checked
  · rename_i current
    show s.isTouched ⟨p, c.id⟩ = true ∨ _
    cases touched : s.isTouched ⟨p, c.id⟩ with
    | true => exact .inl rfl
    | false => exact .inr (by simpa [touched] using current)

theorem update_ok {c : Concept} {cascades : List Cascade}
    (run : update env p c s = (.ok cascades, t)) :
    UpdateEffect env p s.draft c cascades t.draft := by
  obtain ⟨former, _, required, rest⟩ := bind_eq_ok_iff.mp run
  obtain ⟨stored, rfl⟩ := require_ok required
  obtain ⟨_, sameType, rest⟩ := lift_bind_eq_ok_iff.mp rest
  obtain ⟨_, sameContainer, rest⟩ := lift_bind_eq_ok_iff.mp rest
  obtain ⟨_, _, compared, rest⟩ := bind_eq_ok_iff.mp rest
  obtain ⟨current, rfl⟩ := expectRevision_ok compared
  obtain ⟨_, shape, rest⟩ := lift_bind_eq_ok_iff.mp rest
  obtain ⟨c₁, children, rest⟩ := lift_bind_eq_ok_iff.mp rest
  obtain ⟨container, _, named, rest⟩ := bind_eq_ok_iff.mp rest
  obtain ⟨within, rfl⟩ := containerOf_ok named
  obtain ⟨_, allowed, rest⟩ := lift_bind_eq_ok_iff.mp rest
  obtain ⟨⟨c', before⟩, s₁, asked, rest⟩ := bind_eq_ok_iff.mp rest
  have kept := invoke_draft asked
  have request : UpdateRequest env p s.draft c former c₁ container c' before :=
    ⟨stored, expectType_ok sameType, expectContainer_ok sameContainer, current, shape, children,
      within, authorize_ok allowed, s, s₁, rfl, asked⟩
  dsimp only at rest
  split at rest
  · rename_i skip
    obtain ⟨rfl, rfl⟩ := pure_eq_ok_iff.mp rest
    rw [kept]
    exact .skipped request skip
  · obtain ⟨_, s₂, required, rest⟩ := bind_eq_ok_iff.mp rest
    obtain ⟨targets, rfl⟩ := requireTargets_ok required
    rw [kept] at targets
    obtain ⟨⟨stored', written⟩, s₃, changed, rest⟩ := bind_eq_ok_iff.mp rest
    rcases storeChanged_ok changed with
      ⟨rfl, same, rfl, rfl⟩ | ⟨rfl, differs, rfl, room, present, draft⟩
    · obtain ⟨rfl, rfl⟩ := pure_eq_ok_iff.mp rest
      rw [kept]
      exact .unchanged request targets same
    · obtain ⟨⟨c'', after⟩, s₄, asked', rest⟩ := bind_eq_ok_iff.mp rest
      obtain ⟨rfl, rfl⟩ := pure_eq_ok_iff.mp rest
      rw [kept] at room present draft asked'
      rw [invoke_draft asked', draft]
      exact .stored request targets differs room present ⟨s₃, s₄, draft, asked'⟩

theorem removeOne_ok {entry : ConceptId × ConceptType} {u : Unit}
    (run : removeOne p entry s = (.ok u, t)) :
    (s.draft.find? p entry.1).isSome = true ∧ t.draft = s.draft.drop p entry := by
  obtain ⟨_, s₁, touched, rest⟩ := bind_eq_ok_iff.mp run
  obtain ⟨found, s₂, tried, rest⟩ := bind_eq_ok_iff.mp rest
  obtain ⟨v, dropped, rfl⟩ := onView_ok tried
  have marked := touch_ok touched
  split at rest
  · rename_i present
    cases present
    obtain ⟨present, rfl⟩ := Memory.View.delete_ok dropped
    have present : (s₁.draft.find? p entry.1).isSome = true := present
    rw [marked, Draft.find?_mark] at present
    refine ⟨present, ?_⟩
    have removed : s₁.draft.removed = s.draft.removed := by
      rw [marked]
      unfold Draft.mark
      split <;> rfl
    rw [← modify_eq_ok_iff.mp rest, Draft.drop, ← marked, ← removed]
    rfl
  · exact absurd rest fault_ne_ok

theorem removeEach_ok {order : List (ConceptId × ConceptType)} {u : Unit}
    (run : forEach (removeOne p) order s = (.ok u, t)) : Removed p s.draft order t.draft := by
  induction order generalizing s with
  | nil =>
    obtain ⟨-, rfl⟩ := pure_eq_ok_iff.mp run
    exact .done
  | cons entry later ih =>
    obtain ⟨_, s₁, first, rest⟩ := bind_eq_ok_iff.mp run
    obtain ⟨present, draft⟩ := removeOne_ok first
    exact .next present (draft ▸ ih rest)

theorem leaveContainer_ok {r : UInt64} {child : ConceptId} {container container' : Option Concept}
    (run : leaveContainer p r child container s = (.ok container', t)) :
    Left p s.draft r child container container' t.draft := by
  cases container with
  | none =>
    obtain ⟨rfl, rfl⟩ := pure_eq_ok_iff.mp run
    exact .root
  | some parent =>
    obtain ⟨_, s₁, touched, rest⟩ := bind_eq_ok_iff.mp run
    obtain ⟨_, s₂, replaced, rest⟩ := bind_eq_ok_iff.mp rest
    obtain ⟨rfl, rfl⟩ := pure_eq_ok_iff.mp rest
    obtain ⟨present, draft⟩ := replace_ok replaced
    have marked := touch_ok touched
    have same := Concept.detach_id parent child
    have present : (s₁.draft.find? p (parent.detach child).id).isSome = true := present
    rw [marked, Draft.find?_mark, same] at present
    have put : s.draft.put p { parent.detach child with revisionNumber := r } true =
        s₁.draft.edit (·.put p { parent.detach child with revisionNumber := r }) := by
      rw [marked, ← same]
      rfl
    rw [draft, ← put]
    exact .under present

theorem remove_convert_ok {former c c' : Concept} {container container' : Option Concept}
    (run : remove p former c container .convertToUpdate s = (.ok (c', container'), t)) :
    container' = container ∧ ∃ written, storeChanged p former c s = (.ok (c', written), t) := by
  obtain ⟨⟨changed, written⟩, s₁, stored, rest⟩ := bind_eq_ok_iff.mp run
  obtain ⟨same, rfl⟩ := pure_eq_ok_iff.mp rest
  cases same
  exact ⟨rfl, written, stored⟩

theorem remove_proceed_ok {former c c' : Concept} {container container' : Option Concept}
    (run : remove p former c container .proceed s = (.ok (c', container'), t)) :
    c' = c ∧
      (s.draft.allocated.find? p = none → s.draft.contents.counter p < s.draft.revision p) ∧
      ∃ order d₁, subtree (s.draft.allot p).view p former = .ok order ∧
        Removed p (s.draft.allot p) order d₁ ∧
        Left p d₁ (s.draft.revision p) former.id container container' t.draft := by
  obtain ⟨r, s₁, owned, rest⟩ := bind_eq_ok_iff.mp run
  obtain ⟨rfl, allotted, room⟩ := ownRevision_ok owned
  obtain ⟨_, s₂, emptied, rest⟩ := bind_eq_ok_iff.mp rest
  obtain ⟨order, listed, emptied⟩ := look_bind_eq_ok_iff.mp emptied
  have removed := removeEach_ok emptied
  obtain ⟨container'', s₃, left, rest⟩ := bind_eq_ok_iff.mp rest
  obtain ⟨same, rfl⟩ := pure_eq_ok_iff.mp rest
  cases same
  rw [show s₁.view = (s.draft.allot p).view from congrArg Draft.view allotted] at listed
  rw [allotted] at removed
  exact ⟨rfl, room, order, s₂.draft, listed, removed, leaveContainer_ok left⟩

theorem delete_ok {id : ConceptId} {kind : ConceptType} {former : Concept}
    {cascades : List Cascade} (stored : s.draft.find? p id = some former)
    (sameType : former.conceptType = kind)
    (run : delete env p former s = (.ok cascades, t)) :
    DeleteEffect env p s.draft id kind cascades t.draft := by
  obtain ⟨container, _, named, rest⟩ := bind_eq_ok_iff.mp run
  obtain ⟨within, rfl⟩ := containerOf_ok named
  obtain ⟨_, allowed, rest⟩ := lift_bind_eq_ok_iff.mp rest
  obtain ⟨⟨c', before⟩, s₁, asked, rest⟩ := bind_eq_ok_iff.mp rest
  have kept := invoke_draft asked
  have request : DeleteRequest env p s.draft id kind former container c' before :=
    ⟨stored, sameType, within, authorize_ok allowed, s, s₁, rfl, asked⟩
  dsimp only at rest
  split at rest
  · rename_i skip
    obtain ⟨rfl, rfl⟩ := pure_eq_ok_iff.mp rest
    rw [kept]
    exact .skipped request skip
  · rename_i goesOn
    obtain ⟨⟨stored', container'⟩, s₂, gone, rest⟩ := bind_eq_ok_iff.mp rest
    obtain ⟨⟨c'', after⟩, s₃, asked', rest⟩ := bind_eq_ok_iff.mp rest
    obtain ⟨rfl, rfl⟩ := pure_eq_ok_iff.mp rest
    rw [invoke_draft asked']
    cases directive : before.directive with
    | skip => exact absurd directive goesOn
    | convertToUpdate =>
      rw [directive] at gone
      obtain ⟨rfl, written, changed⟩ := remove_convert_ok gone
      rcases storeChanged_ok changed with
        ⟨rfl, same, rfl, rfl⟩ | ⟨rfl, differs, rfl, room, present, draft⟩
      · rw [kept]
        exact .kept request directive same ⟨s₁, s₃, kept, asked'⟩
      · rw [kept] at room present draft asked'
        rw [draft]
        exact .marked request directive differs room present ⟨s₂, s₃, draft, asked'⟩
    | proceed =>
      rw [directive] at gone
      obtain ⟨rfl, room, order, d₁, listed, removed, left⟩ := remove_proceed_ok gone
      rw [kept] at room listed removed left
      exact .removed request directive room listed removed left ⟨s₂, s₃, rfl, asked'⟩

/-- An operation that succeeds has one of the effects of its kind. -/
theorem execute_ok {operation : Operation} {cascades : List Cascade}
    (run : execute env p operation s = (.ok cascades, t)) :
    Effect env p s.draft operation cascades t.draft := by
  obtain ⟨_, s₁, reported, rest⟩ := bind_eq_ok_iff.mp run
  have reported : s₁.draft = s.draft := by
    rw [← modify_eq_ok_iff.mp reported]
    rfl
  rw [← reported]
  cases operation with
  | create c orderKey => exact .create (create_ok rest)
  | update c => exact .update (update_ok rest)
  | delete id kind =>
    obtain ⟨former, _, required, rest⟩ := bind_eq_ok_iff.mp rest
    obtain ⟨stored, rfl⟩ := require_ok required
    obtain ⟨_, sameType, rest⟩ := lift_bind_eq_ok_iff.mp rest
    exact .delete (delete_ok stored (expectType_ok sameType) rest)

section Elsewhere

variable {d d' : Draft} {q : Partition}

theorem find?_allot_eq (d : Draft) (p q : Partition) : (d.allot p).find? q = d.find? q :=
  funext fun id => d.find?_allot p q id

theorem find?_put_other (d : Draft) (c : Concept) (existed : Bool) (other : q ≠ p) :
    (d.put p c existed).find? q = d.find? q := by
  funext id
  simp [Draft.find?_put, other]

theorem Removed.find? {order : List (ConceptId × ConceptType)} (run : Removed p d order d')
    (q : Partition) (id : ConceptId) :
    d'.find? q id = if q = p ∧ id ∈ order.map (·.1) then none else d.find? q id := by
  induction run with
  | done => simp
  | next _ _ ih =>
    rw [ih, Draft.find?_drop, List.map_cons]
    grind

theorem Removed.elsewhere {order : List (ConceptId × ConceptType)} (run : Removed p d order d')
    (other : q ≠ p) : d'.find? q = d.find? q := by
  funext id
  rw [run.find?, if_neg fun both => other both.1]

theorem Entered.elsewhere {r : UInt64} {child : Concept} {orderKey : Option Int64}
    {container container' : Option Concept}
    (entered : Entered p d r child orderKey container container' d') (other : q ≠ p) :
    d'.find? q = d.find? q := by
  cases entered with
  | root => rfl
  | under => exact find?_put_other _ _ _ other

/-- An operation changes concepts only in its own partition. -/
theorem Effect.elsewhere {operation : Operation} {cascades : List Cascade}
    (effect : Effect env p d operation cascades d') (other : q ≠ p) : d'.find? q = d.find? q := by
  cases effect with
  | create effect =>
    cases effect with
    | skipped => rfl
    | stored _ _ _ _ entered _ =>
      rw [entered.elsewhere other, find?_put_other _ _ _ other, find?_allot_eq]
  | update effect =>
    cases effect with
    | skipped | unchanged => rfl
    | stored => rw [find?_put_other _ _ _ other, find?_allot_eq]
  | delete effect =>
    cases effect with
    | skipped | kept => rfl
    | marked => rw [find?_put_other _ _ _ other, find?_allot_eq]
    | removed _ _ _ _ removed left _ =>
      have before := (removed.elsewhere other).trans (find?_allot_eq d p q)
      cases left with
      | root => exact before
      | under => rw [find?_put_other _ _ _ other, before]

end Elsewhere

end ConceptLedger.Batch
