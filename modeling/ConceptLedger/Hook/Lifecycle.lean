import ConceptLedger.Concept.Containment
import ConceptLedger.Hook.Basic

/-!
What the lifecycles of engineering models and iterations share: when a setup is frozen or current,
which number it has, and where the model of a setup is kept.
-/

namespace ConceptLedger.Lifecycle

/-- A setup is frozen once it bears the instant of freezing. -/
def isFrozen (setup : Concept) : Bool :=
  ((setup.property? Property.frozenOn).bind (·.timestamp?)).isSome

/-- A setup is current while its container selects it. -/
def isCurrent (setup : ConceptId) (container : Option Concept) : Bool :=
  container.bind (·.ref? Property.activeIterationSetup) = some setup

/-- The number of an iteration setup, zero if it has none. -/
def iterationNumber (setup : Concept) : Int64 :=
  ((setup.property? Property.iterationNumber).bind (·.int?)).getD 0

/-- Refuses a property of a concept. -/
def refuse {α : Type} (c : Concept) (property reason : String) : Except Failure α :=
  fail (.invalidProperty c.id.text property reason)

/-- The identifier of a setup's model, which is also that of the model's root. -/
def modelOf (setup : Concept) : Except Failure ConceptId :=
  match setup.ref? Property.engineeringModelIid with
  | some id => .ok id
  | none => refuse setup Property.engineeringModelIid "engineering model setup has no model"

/-- A cascade that creates a concept in a partition. -/
def creating (p : Partition) (c : Concept) (orderKey : Option Int64) : Cascade :=
  ⟨some p, .create c orderKey⟩

/-- A cascade that deletes a concept in a partition, if it can be found there. -/
def deletingIfStored (setting : HookSetting) (p : Partition) (id : ConceptId)
    (t : ConceptType) : Except Failure (List Cascade) :=
  (setting.lookup p id).map fun found =>
    if found.isSome then [⟨some p, .delete id t⟩] else []

end ConceptLedger.Lifecycle
