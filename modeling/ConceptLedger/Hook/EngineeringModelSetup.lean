import ConceptLedger.Hook.Lifecycle

/-!
The lifecycle of engineering models. A setup in the site directory owns the partition of one
model; the root of the model is created and removed together with the setup.
-/

namespace ConceptLedger.EngineeringModelSetup

open Lifecycle

/-- A new setup names a model, a new one unless it is given, and selects no iteration. -/
def beforeCreate : Step HookState HookOutcome := do
  let c ← Hook.concept
  if (c.ref? Property.engineeringModelIid).isNone then
    let id ← Hook.newId
    Hook.setProperty Property.engineeringModelIid (.ref id)
  Hook.setProperty Property.activeIterationSetup .null
  pure {}

/-- The root of a setup's model. -/
def rootOf (setup : Concept) (model : ConceptId) : Concept :=
  { id := model, conceptType := .engineeringModel,
    properties := SortedMap.empty.insert Property.engineeringModelSetup (.ref setup.id) }

/-- A stored setup gets the root of its model. -/
def afterCreate (c : Concept) : Except Failure HookOutcome :=
  (modelOf c).map fun model => { cascades := [creating (.model model) (rootOf c model) none] }

/-- The model of a setup is fixed, and no frozen iteration setup can be selected. -/
def beforeUpdate (former : Concept) (setting : HookSetting) (c : Concept) :
    Except Failure HookOutcome :=
  if c.ref? Property.engineeringModelIid ≠ former.ref? Property.engineeringModelIid then
    refuse c Property.engineeringModelIid "the model of a setup is fixed"
  else
    let active := c.ref? Property.activeIterationSetup
    if active = former.ref? Property.activeIterationSetup then .ok {}
    else
      (setting.lookupLocal active.toList).bind fun selected =>
        if selected.any isFrozen then
          refuse c Property.activeIterationSetup "a frozen iteration setup cannot become current"
        else .ok {}

/-- With a setup goes the root of its model. -/
def afterDelete (former : Concept) (setting : HookSetting) : Except Failure HookOutcome :=
  (modelOf former).bind fun model =>
    (deletingIfStored setting (.model model) model .engineeringModel).map fun cascades =>
      { cascades }

/-- The rules of engineering model setups. -/
def hook : Hook := fun occasion setting =>
  match occasion with
  | .beforeCreate => beforeCreate
  | .afterCreate => do Step.lift (afterCreate (← Hook.concept))
  | .beforeUpdate former => do Step.lift (beforeUpdate former setting (← Hook.concept))
  | .afterUpdate _ | .beforeDelete _ => pure {}
  | .afterDelete former => Step.lift (afterDelete former setting)

end ConceptLedger.EngineeringModelSetup
