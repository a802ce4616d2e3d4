import ConceptLedger.Hook.Lifecycle

/-!
The lifecycle of iterations. A setup is active when it is created and frozen when a newer sibling
is; a frozen setup can only be marked as deleted. The setup that its container selects cannot be
deleted. Each setup owns an iteration in the partition of the model, copied from the one before.
-/

namespace ConceptLedger.IterationSetup

open Lifecycle

/-- The rule that protects the selected setup. -/
def currentRule : String := "current_iteration_setup"

/-- A setup cannot do without a container. -/
def neededContainer (setup : Concept) (setting : HookSetting) : Except Failure Concept :=
  match setting.container with
  | some c => .ok c
  | none => fail (.missingContainer setup.id.text setup.conceptType.name)

/-- The other setups of a container, in the order of its list. -/
def siblings (setup container : Concept) (setting : HookSetting) :
    Except Failure (List Concept) :=
  let listed := ((container.property? Property.iterationSetup).map (·.referenced)).getD []
  setting.lookupLocal (listed.filter (· ≠ setup.id))

/-- The setup with the greatest number, the last one of several. -/
def latest? (setups : List Concept) : Option Concept :=
  setups.foldl (fun best s =>
    match best with
    | some b => if iterationNumber b ≤ iterationNumber s then some s else some b
    | none => some s) none

/-- The number after those of the given setups, if it is in range. -/
def nextNumber (prior : List Concept) : Except Failure Int64 :=
  let last := ((prior.map iterationNumber).max?).getD 0
  if last = Int64.maxValue then .error .overflow else .ok (last + 1)

/-- A new setup names an iteration, takes the next number, and follows the latest sibling. -/
def beforeCreate (setting : HookSetting) : Step HookState HookOutcome := do
  let c ← Hook.concept
  let container ← Step.lift (neededContainer c setting)
  let prior ← Step.lift (siblings c container setting)
  if (c.ref? Property.iterationIid).isNone then
    let id ← Hook.newId
    Hook.setProperty Property.iterationIid (.ref id)
  let number ← Step.lift (nextNumber prior)
  Hook.setProperty Property.iterationNumber (.int number)
  Hook.setProperty Property.isDeleted (.bool false)
  Hook.setProperty Property.frozenOn .null
  let source := ((latest? prior).map fun s => PropertyValue.ref s.id).getD .null
  Hook.setProperty Property.sourceIterationSetup source
  pure {}

/-- The update that makes a container select a setup. -/
def selecting (container setup : Concept) : Cascade :=
  ⟨none, .update (container.setProperty Property.activeIterationSetup (.ref setup.id))⟩

/-- The updates that freeze the setups which are neither frozen nor marked as deleted. -/
def freezing (time : Instant) (prior : List Concept) : List Cascade :=
  (prior.filter fun s => !isFrozen s && !s.isSoftDeleted).map fun s =>
    ⟨none, .update (s.setProperty Property.frozenOn (.timestamp time))⟩

/-- The iteration that a setup follows, if it is stored: that of its source among the siblings. -/
def previousIteration (setup : Concept) (model : ConceptId) (prior : List Concept)
    (setting : HookSetting) : Except Failure (Option Concept) :=
  let source := (setup.ref? Property.sourceIterationSetup).bind fun id =>
    prior.find? fun s => s.id = id
  match source.bind (·.ref? Property.iterationIid) with
  | some id => setting.lookup (.model model) id
  | none => .ok none

/-- A child as it is created again under another container, without children of its own. -/
def copyOf (child : Concept) (id parent : ConceptId) : Concept :=
  ({ child with id, container := some parent, revisionNumber := 0 }).withoutChildren

/-- The creations that repeat the contents of a concept under a new parent, each child before its
own contents. Nothing keeps the walk from concepts that it has met before, so that it has no end
where a concept lies within itself: this is what a walk comes to that goes deeper than there are
concepts. -/
def copyContents (setting : HookSetting) (p : Partition) :
    Nat → Concept → ConceptId → Step HookState (List Cascade)
  | 0, _, _ => Step.fail .endless
  | depth + 1, source, parent =>
    let entries := source.conceptType.containment.flatMap source.entries
    entries.foldlM (fun done entry => do
      match ← Step.lift (setting.lookup p entry.1) with
      | none => pure done
      | some child =>
        let id ← Hook.newId
        let inside ← copyContents setting p depth child id
        pure (done ++ creating p (copyOf child id parent) entry.2 :: inside)) []

/-- The iteration of a new setup: like the previous one, or empty. -/
def iterationOf (setup : Concept) (id model : ConceptId) (previous : Option Concept) : Concept :=
  let base := previous.getD { id, conceptType := .iteration }
  (copyOf base id model).setProperty Property.iterationSetup (.ref setup.id)

/-- A stored setup is selected, the others are frozen, and its iteration is created with the
contents of the previous one. The selection moves first, so that no selected setup is frozen. -/
def afterCreate (setting : HookSetting) : Step HookState HookOutcome := do
  let c ← Hook.concept
  let container ← Step.lift (neededContainer c setting)
  let model ← Step.lift (modelOf container)
  let prior ← Step.lift (siblings c container setting)
  let id ← match c.ref? Property.iterationIid with
    | some id => pure id
    | none => Step.lift (refuse c Property.iterationIid "missing after creation")
  let previous ← Step.lift (previousIteration c model prior setting)
  let iteration := iterationOf c id model previous
  let contents ← match previous with
    | some p => copyContents setting (.model model) (setting.extent + 1) p id
    | none => pure []
  pure { cascades := selecting container c :: freezing setting.time prior ++
    creating (.model model) iteration none :: contents }

/-- The properties that are given once and for all. -/
def fixedProperties : List String :=
  [Property.iterationIid, Property.iterationNumber, Property.sourceIterationSetup]

/-- The first fixed property in which two states differ. -/
def changedFixed? (former c : Concept) : Option String :=
  fixedProperties.find? fun name =>
    !PropertyValue.optionAgrees (c.property? name) (former.property? name)

/-- What was assigned stays, the selected setup is not frozen, a frozen one stays frozen, and only
deletion marks a setup as deleted. -/
def beforeUpdate (former : Concept) (setting : HookSetting) (c : Concept) :
    Except Failure HookOutcome :=
  match changedFixed? former c with
  | some name => refuse c name "assigned when the iteration setup is created"
  | none =>
    if isFrozen c && isCurrent c.id setting.container then
      refuse c Property.frozenOn "the current iteration setup cannot be frozen"
    else if isFrozen former && !isFrozen c then
      refuse c Property.frozenOn "a frozen iteration setup stays frozen"
    else if c.isSoftDeleted != former.isSoftDeleted then
      refuse c Property.isDeleted "only deletion of a frozen setup marks it deleted"
    else .ok {}

/-- The selected setup is protected, a frozen one is only marked, any other is removed. -/
def beforeDelete (setting : HookSetting) : Step HookState HookOutcome := do
  let c ← Hook.concept
  match isCurrent c.id setting.container, isFrozen c with
  | true, true =>
    Step.lift (refuse c Property.frozenOn "iteration setup is both current and frozen")
  | true, false =>
    Step.fault (.lifecycleVeto currentRule c.id.text "delete"
      "it is the active iteration setup of its model")
  | false, true =>
    if c.isSoftDeleted then pure { directive := .skip }
    else
      Hook.setProperty Property.isDeleted (.bool true)
      pure { directive := .convertToUpdate }
  | false, false => pure {}

/-- With a setup that was not frozen goes its iteration. -/
def afterDelete (former : Concept) (setting : HookSetting) : Except Failure HookOutcome :=
  match isFrozen former, setting.container, former.ref? Property.iterationIid with
  | false, some container, some id =>
    (modelOf container).bind fun model =>
      (deletingIfStored setting (.model model) id .iteration).map fun cascades => { cascades }
  | _, _, _ => .ok {}

/-- The rules of iteration setups. -/
def hook : Hook := fun occasion setting =>
  match occasion with
  | .beforeCreate => beforeCreate setting
  | .afterCreate => afterCreate setting
  | .beforeUpdate former => do Step.lift (beforeUpdate former setting (← Hook.concept))
  | .afterUpdate _ => pure {}
  | .beforeDelete _ => beforeDelete setting
  | .afterDelete former => Step.lift (afterDelete former setting)

end ConceptLedger.IterationSetup
