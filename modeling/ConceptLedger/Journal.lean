import ConceptLedger.Operation

/-!
The journal: the events that batches and reads report while they run, each with its level and its
fields as text.
-/

namespace ConceptLedger

/-- What is reported. -/
inductive Event where
  | batchStarted (requestId : String) (partition : Partition) (operations : Nat) (actor : Uuid)
  | executing (partition : Partition) (operation : Operation)
  | batchCommitted (requestId : String) (outcome : BatchOutcome)
  | batchRejected (requestId : String) (failure : Failure)
  | readStarted (op : String) (partition : Partition)
  | readDenied (partition : Partition) (concept : Concept) (actor : Uuid)
  | readEnded (op : String)
  | readFailed (op : String) (failure : Failure)
  | migrated (applied : Nat)
deriving DecidableEq

/-- How important an event is. -/
inductive Level where
  | debug
  | info
  | error
deriving DecidableEq

namespace Level

/-- The written name of a level. -/
def name : Level → String
  | debug => "DEBUG"
  | info => "INFO"
  | error => "ERROR"

end Level

namespace Event

/-- The level of an event: errors for what failed, details for what happens inside. -/
def level : Event → Level
  | executing _ _ | readDenied _ _ _ => .debug
  | batchRejected _ _ | readFailed _ _ => .error
  | _ => .info

/-- A value that may be missing, as text. -/
def optionText (value : Option String) : String :=
  match value with
  | some v => s!"Some({v})"
  | none => "None"

/-- The fields that tell what failed. -/
def failureFields (f : Failure) : List (String × String) :=
  [("err_kind", f.kind.name), ("err_code", f.kind.code)]

/-- The fields of an event. -/
def fields : Event → List (String × String)
  | batchStarted request p count actor =>
    [("op", "process_batch"), ("event", "start"), ("request_id", request), ("partition", p.name),
      ("operation_count", toString count), ("actor", actor.text)]
  | executing p operation =>
    [("op", "execute"), ("partition", p.name), ("concept_id", operation.targetId.text),
      ("concept_type", operation.conceptType.name), ("operation", operation.kind.name)]
  | batchCommitted request outcome =>
    [("op", "process_batch"), ("event", "end"), ("request_id", request),
      ("revision", optionText (outcome.revision.map toString)),
      ("changed", toString outcome.concepts.length),
      ("removed", toString outcome.removed.length)]
  | batchRejected request f =>
    [("op", "process_batch"), ("event", "end_error"), ("request_id", request),
      ("operation_index", optionText (f.index.map toString))] ++ failureFields f
  | readStarted op p => [("op", op), ("event", "start"), ("partition", p.name)]
  | readDenied p c actor =>
    [("event", "read_denied"), ("partition", p.name), ("concept_id", c.id.text),
      ("concept_type", c.conceptType.name), ("actor", actor.text)]
  | readEnded op => [("op", op), ("event", "end")]
  | readFailed op f => [("op", op), ("event", "end_error")] ++ failureFields f
  | migrated applied =>
    [("op", "apply_migrations"), ("event", "end"), ("applied", toString applied)]

end Event

/-- The events so far, in order. -/
abbrev Journal := List Event

end ConceptLedger
