import ConceptLedger.Wire.Actor

/-!
The wire format of operations, batches and their outcomes.
-/

namespace ConceptLedger.Wire

/-- Reads an operation of a kind from its other fields. -/
def operationOf? (kind : String) (fields : Json) : Option Operation :=
  match kind with
  | "create" =>
    match fields.record? ["concept", "order_key"] with
    | some [concept, key] => do
      some (.create (← required concept? concept) (← optional int64? key))
    | _ => none
  | "update" =>
    match fields.record? ["concept"] with
    | some [concept] => (required concept? concept).map .update
    | _ => none
  | "delete" =>
    match fields.record? ["id", "concept_type"] with
    | some [id, type] => do some (.delete (← required uuid? id) (← required conceptType? type))
    | _ => none
  | _ => none

/-- Reads an operation, whose kind stands among its fields or before them. -/
def operation? (j : Json) : Option Operation :=
  match j with
  | .arr (.str kind :: rest) => operationOf? kind (.arr rest)
  | .obj members =>
    match Json.unique? "op" members with
    | some (some (.str kind)) => operationOf? kind j
    | _ => none
  | _ => none

/-- Writes an operation. -/
def ofOperation : Operation → Json
  | .create c key =>
    Json.objOf
      [some ("op", .str "create"), some ("concept", ofConcept c),
        key.map fun k => ("order_key", ofInt64 k)]
  | .update c => .obj [("op", .str "update"), ("concept", ofConcept c)]
  | .delete id t =>
    .obj [("op", .str "delete"), ("id", ofUuid id), ("concept_type", ofConceptType t)]

/-- Reads the names of a request. -/
def requestContext? (j : Json) : Option RequestContext :=
  match j.record? ["request_id", "trace_id"] with
  | some [request, trace] => do
    some ⟨← required Json.string? request, ← optional Json.string? trace⟩
  | _ => none

/-- Writes the names of a request. -/
def ofRequestContext (c : RequestContext) : Json :=
  Json.objOf
    [some ("request_id", .str c.requestId), c.traceId.map fun t => ("trace_id", .str t)]

/-- Writes a batch. -/
def ofBatchRequest (r : BatchRequest) : Json :=
  .obj [("context", ofRequestContext r.context), ("actor", ofActor r.actor),
    ("partition", ofPartition r.partition), ("operations", ofList ofOperation r.operations)]

/-- Writes the outcome of a batch. -/
def ofBatchOutcome (o : BatchOutcome) : Json :=
  .obj [("revision", ofOption ofWord o.revision),
    ("revisions", ofMap Partition.name ofWord o.revisions),
    ("concepts", ofList ofConcept o.concepts), ("removed", ofList ofUuid o.removed)]

/-- Reads a file with the partition and the operations of a batch, and nothing else. -/
def batchFile? (j : Json) : Option (Partition × List Operation) :=
  let fields := ["partition", "operations"]
  if ((j.members?.getD []).all fun m => m.1 ∈ fields) then
    match j.record? fields with
    | some [p, operations] => do
      some (← required partition? p, ← required (list? operation?) operations)
    | _ => none
  else none

end ConceptLedger.Wire
