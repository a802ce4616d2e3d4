import ConceptLedger.Failure
import ConceptLedger.Wire.Basic

/-!
The wire format of failures, and of the faults that lead to them.
-/

namespace ConceptLedger.Wire

/-- The circumstances of a failure by name, those that are known. -/
def failureDetails (f : Failure) : List (String × Json) :=
  let text (name : String) (value : Option String) : Option (String × Json) :=
    value.map fun v => (name, .str v)
  [text "op" f.op, text "concept_id" f.conceptId, text "concept_type" f.conceptType,
    text "operation" f.operation, text "actor" f.actor, text "partition" f.partition,
    text "rule" f.rule, text "request_id" f.requestId, text "trace_id" f.traceId,
    f.index.map fun i => ("index", .int i)].filterMap id

/-- The kind of a failure and what follows from the kind. -/
def failureKind (f : Failure) : List (String × Json) :=
  [("error", .str f.kind.name), ("code", .str f.kind.code), ("retryable", .bool f.kind.retryable)]

/-- The wording of a failure. -/
def failureWording (f : Failure) : List (String × Json) :=
  [("message", .str f.message), ("display", .str f.text)]

/-- Writes a failure. -/
def ofFailure (f : Failure) : Json :=
  .obj (failureKind f ++ failureWording f ++ failureDetails f)

/-- Reads a circumstance, given by name and value, into a failure. -/
def failureWith? (f : Failure) (name : String) (value : Json) : Option Failure := do
  match name with
  | "index" => some (f.atIndex (← word? value).toNat)
  | "op" => some { f with op := some (← value.string?) }
  | "concept_id" => some { f with conceptId := some (← value.string?) }
  | "concept_type" => some { f with conceptType := some (← value.string?) }
  | "operation" => some { f with operation := some (← value.string?) }
  | "actor" => some { f with actor := some (← value.string?) }
  | "partition" => some { f with partition := some (← value.string?) }
  | "rule" => some { f with rule := some (← value.string?) }
  | "request_id" => some { f with requestId := some (← value.string?) }
  | "trace_id" => some { f with traceId := some (← value.string?) }
  | "message" => some { f with message := ← value.string? }
  | _ => none

/-- Reads a fault by the name of its cause. A text that is left out is empty, a number zero. -/
def fault? (j : Json) : Option Fault := do
  let text (name : String) : Option String :=
    (optional Json.string? (j.member? name)).map (·.getD "")
  let number (name : String) : Option Nat :=
    (optional word? (j.member? name)).map fun n => (n.getD 0).toNat
  let id ← text "concept_id"
  let type ← text "concept_type"
  let property ← text "property"
  let reason ← text "reason"
  let message ← text "message"
  match ← required Json.string? (j.member? "variant") with
  | "ConceptNotFound" => some (.conceptNotFound id (← text "partition"))
  | "ContainerNotFound" =>
    some (.containerNotFound id (← text "container_id") (← text "partition"))
  | "AssociationTargetNotFound" =>
    some (.associationTargetNotFound id property (← text "target_id"))
  | "InvalidContainment" => some (.invalidContainment id type (← text "container_type"))
  | "MissingContainer" => some (.missingContainer id type)
  | "RootWithContainer" => some (.rootWithContainer id type)
  | "DuplicateConcept" => some (.duplicateConcept id)
  | "TypeMismatch" => some (.typeMismatch id (← text "expected") (← text "actual"))
  | "ContainmentImmutable" => some (.containmentImmutable id property reason)
  | "InvalidProperty" => some (.invalidProperty id property reason)
  | "InvalidPartition" => some (.invalidPartition (← text "name"))
  | "CascadeLimitExceeded" => some (.cascadeLimitExceeded (← number "limit"))
  | "AccessDenied" => some (.accessDenied (← text "actor") type id (← text "operation"))
  | "LifecycleVeto" => some (.lifecycleVeto (← text "rule") id (← text "operation") reason)
  | "RevisionConflict" =>
    some (.revisionConflict id (← number "submitted") (← number "stored"))
  | "StoreUnavailable" => some (.storeUnavailable message)
  | "Serialization" => some (.serialization message)
  | "Internal" => some (.internal message)
  | _ => none

end ConceptLedger.Wire
