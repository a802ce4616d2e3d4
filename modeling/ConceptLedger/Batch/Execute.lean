import ConceptLedger.Batch.Basic

/-!
The three operations. Each one checks the request against the stored state, asks the gate, runs
the hooks before the change, stores it together with the container's list, and runs the hooks
after it. The answer is the cascades, those from before the change first.
-/

namespace ConceptLedger.Batch

variable {σ : Type} [ConceptStore σ]

/-- The container that a new concept names. A root has none; any other concept has a stored one
whose type can contain it. -/
def containerFor (p : Partition) (c : Concept) : BatchStep σ (Option Concept) :=
  match c.conceptType.isRoot, c.container with
  | true, none => pure none
  | true, some _ => Step.fault (.rootWithContainer c.id.text c.conceptType.name)
  | false, none => Step.fault (.missingContainer c.id.text c.conceptType.name)
  | false, some id => do
    match ← find p id with
    | none => Step.fault (.containerNotFound c.id.text id.text p.name)
    | some container =>
      if (container.conceptType.containmentFor? c.conceptType).isSome then pure (some container)
      else
        Step.fault
          (.invalidContainment c.id.text c.conceptType.name container.conceptType.name)

/-- Checks one concept that an association refers to. -/
def requireTarget (lookup : ConceptId → Except Failure (Option Concept)) (c : Concept)
    (a : Association) (target : ConceptId) : Except Failure Unit :=
  (lookup target).bind fun found =>
    match found with
    | none => fail (.associationTargetNotFound c.id.text a.name target.text)
    | some t =>
      if t.conceptType = a.target then .ok ()
      else
        fail (.invalidProperty c.id.text a.name
          s!"expects a {a.target.name} but {target.text} is a {t.conceptType.name}")

/-- Checks what an association refers to, unless it is as it was stored. -/
def requireTargetsOf (lookup : ConceptId → Except Failure (Option Concept)) (c : Concept)
    (former : Option Concept) (a : Association) : Except Failure Unit :=
  match c.property? a.name with
  | none => .ok ()
  | some value =>
    if PropertyValue.optionAgrees (former.bind (·.property? a.name)) (some value) then .ok ()
    else value.referenced.forM (requireTarget lookup c a)

/-- Checks that new associations refer to stored concepts of the declared type. -/
def requireTargets (p : Partition) (c : Concept) (former : Option Concept) :
    BatchStep σ Unit :=
  Step.look fun s =>
    c.conceptType.associations.forM (requireTargetsOf (ConceptStore.find? s.view p) c former)

/-- Enters a new child into its container, which is stored under the same revision. -/
def enterChild (p : Partition) (revision : UInt64) (child : Concept) (orderKey : Option Int64) :
    Option Concept → BatchStep σ (Option Concept)
  | none => pure none
  | some parent => do
    touch p parent.id true
    let extended ← Step.lift (parent.attach child orderKey)
    let parent := { extended with revisionNumber := revision }
    replace p parent
    pure (some parent)

/-- Stores a new concept and enters it into its container. -/
def storeNew (p : Partition) (c : Concept) (container : Option Concept)
    (orderKey : Option Int64) : BatchStep σ (Concept × Option Concept) := do
  let revision ← ownRevision p
  let c := { c with revisionNumber := revision }
  touch p c.id false
  if ← onView (ConceptStore.write p c) then
    let container ← enterChild p revision c orderKey container
    pure (c, container)
  else Step.fault (.duplicateConcept c.id.text)

/-- Creates a concept. Its containment lists start empty; children come by creations of their
own. -/
def create (env : Setting) (p : Partition) (c : Concept) (orderKey : Option Int64) :
    BatchStep σ (List Cascade) := do
  match ← find p c.id with
  | some _ => Step.fault (.duplicateConcept c.id.text)
  | none =>
    let container ← containerFor p c
    Step.lift c.checkShape
    let c := c.withoutChildren
    let security := env.gate.contextFor env.actor p container
    Step.lift (env.gate.authorize env.actor c .create p security)
    let (c, before) ← invoke env p security .beforeCreate c container
    if before.directive = .skip then pure before.cascades
    else
      requireTargets p c none
      let (c, container) ← storeNew p c container orderKey
      let (_, after) ← invoke env p security .afterCreate c container
      pure (before.cascades ++ after.cascades)

/-- Refuses an operation that takes a stored concept to have another type. -/
def expectType (stored : Concept) (t : ConceptType) : Except Failure Unit :=
  if stored.conceptType = t then .ok ()
  else fail (.typeMismatch stored.id.text t.name stored.conceptType.name)

/-- Refuses an update that moves a concept. -/
def expectContainer (former c : Concept) : Except Failure Unit :=
  if former.container = c.container then .ok ()
  else
    fail (.containmentImmutable c.id.text "container"
      "a concept cannot move to another container")

/-- Refuses an update that starts from an older state than the stored one, unless this batch has
written the concept itself. -/
def expectRevision (p : Partition) (former c : Concept) : BatchStep σ Unit :=
  Step.look fun s =>
    if !s.isTouched ⟨p, c.id⟩ && c.revisionNumber < former.revisionNumber then
      fail (.revisionConflict c.id.text c.revisionNumber.toNat former.revisionNumber.toNat)
    else .ok ()

/-- Updates a concept. Its containment lists stay as they are stored. -/
def update (env : Setting) (p : Partition) (c : Concept) : BatchStep σ (List Cascade) := do
  let former ← require p c.id
  Step.lift (expectType former c.conceptType)
  Step.lift (expectContainer former c)
  expectRevision p former c
  Step.lift c.checkShape
  let c ← Step.lift (Concept.withStoredChildren former c)
  let container ← containerOf p former
  let security := env.gate.contextFor env.actor p container
  Step.lift (env.gate.authorize env.actor former .update p security)
  let (c, before) ← invoke env p security (.beforeUpdate former) c container
  if before.directive = .skip then pure before.cascades
  else
    requireTargets p c (some former)
    let (c, written) ← storeChanged p former c
    if written then
      let (_, after) ← invoke env p security (.afterUpdate former) c container
      pure (before.cascades ++ after.cascades)
    else pure before.cascades

/-- What a walk through contained concepts has met, and whom it is to remove, children before
their parents. -/
structure Walk where
  seen : List ConceptId
  order : List (ConceptId × ConceptType)

/-- A child that is met on a walk. It is entered once, and its own contents follow if it is stored;
one that is not is passed over. -/
def visit (lookup : ConceptId → Except Failure (Option Concept))
    (descend : Concept → Walk → Except Failure Walk) (w : Walk) (child : ConceptId) :
    Except Failure Walk :=
  if child ∈ w.seen then .ok w
  else
    let w := { w with seen := child :: w.seen }
    (lookup child).bind fun found =>
      match found with
      | some inner => descend inner w
      | none => .ok w

/-- Walks through the contents of a concept, property by property, and ends with the concept
itself. The depth is bounded by the number of stored concepts. -/
def walk (lookup : ConceptId → Except Failure (Option Concept)) :
    Nat → Concept → Walk → Except Failure Walk
  | 0, c, w => .ok { w with order := w.order ++ [(c.id, c.conceptType)] }
  | depth + 1, c, w =>
    (c.childIds.foldlM (visit lookup (walk lookup depth)) w).map
      fun w => { w with order := w.order ++ [(c.id, c.conceptType)] }

/-- A concept and all that it contains, directly or not, children first. -/
def subtree (v : σ) (p : Partition) (root : Concept) :
    Except Failure (List (ConceptId × ConceptType)) :=
  (walk (ConceptStore.find? v p) (ConceptStore.extent v + 1) root ⟨[root.id], []⟩).map (·.order)

/-- Removes one stored concept. -/
def removeOne (p : Partition) (entry : ConceptId × ConceptType) : BatchStep σ Unit := do
  touch p entry.1 true
  if ← onView (ConceptStore.delete p entry.1) then
    Step.modify fun s => { s with removed := s.removed.insert ⟨p, entry.1⟩ entry.2 }
  else Step.fault (missing p entry.1)

/-- Removes a concept with all that it contains. -/
def removeAll (p : Partition) (root : Concept) : BatchStep σ Unit := do
  let order ← Step.look fun s => subtree s.view p root
  Step.forEach (removeOne p) order

/-- Takes a removed child out of its container, which is stored under the given revision. -/
def leaveContainer (p : Partition) (revision : UInt64) (child : ConceptId) :
    Option Concept → BatchStep σ (Option Concept)
  | none => pure none
  | some parent => do
    touch p parent.id true
    let parent := { parent.detach child with revisionNumber := revision }
    replace p parent
    pure (some parent)

/-- Removes a concept for good, or stores the state that the hooks made of it instead. -/
def remove (p : Partition) (former c : Concept) (container : Option Concept)
    (directive : Directive) : BatchStep σ (Concept × Option Concept) :=
  match directive with
  | .convertToUpdate => do
    let (c, _) ← storeChanged p former c
    pure (c, container)
  | _ => do
    let revision ← ownRevision p
    removeAll p former
    let container ← leaveContainer p revision former.id container
    pure (c, container)

/-- Deletes a stored concept. -/
def delete (env : Setting) (p : Partition) (former : Concept) :
    BatchStep σ (List Cascade) := do
  let container ← containerOf p former
  let security := env.gate.contextFor env.actor p container
  Step.lift (env.gate.authorize env.actor former .delete p security)
  let (c, before) ← invoke env p security (.beforeDelete former) former container
  if before.directive = .skip then pure before.cascades
  else
    let (c, container) ← remove p former c container before.directive
    let (_, after) ← invoke env p security (.afterDelete former) c container
    pure (before.cascades ++ after.cascades)

/-- Executes one operation and answers the cascades that it causes. -/
def execute (env : Setting) (p : Partition) (operation : Operation) :
    BatchStep σ (List Cascade) := do
  report (.executing p operation)
  match operation with
  | .create c orderKey => create env p c orderKey
  | .update c => update env p c
  | .delete id t => do
    let former ← require p id
    Step.lift (expectType former t)
    delete env p former

end ConceptLedger.Batch
