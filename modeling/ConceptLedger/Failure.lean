/-!
Failures. A `Fault` names a cause with what it concerns; a `Failure` is what callers see: a kind,
a message and the circumstances that are known. Every fault has one message and one failure.
-/

namespace ConceptLedger

/-- The kinds of failure. The last two are told to nobody: a computation that never comes to an end, and
one that stops the program because a number leaves its range. -/
inductive FailureKind where
  | authorization
  | validation
  | lifecycleVeto
  | persistence
  | notFound
  | serialization
  | io
  | internal
  | endless
  | overflow
deriving DecidableEq, Inhabited

namespace FailureKind

/-- The kinds that callers are told of. -/
def all : List FailureKind :=
  [.authorization, .validation, .lifecycleVeto, .persistence, .notFound, .serialization, .io,
    .internal]

/-- The name of a kind that is told. -/
def name : FailureKind → String
  | authorization => "Authorization"
  | validation => "Validation"
  | lifecycleVeto => "LifecycleVeto"
  | persistence => "Persistence"
  | notFound => "NotFound"
  | serialization => "Serialization"
  | io => "Io"
  | internal => "Internal"
  | endless | overflow => ""

/-- The code by which callers tell the kinds apart. -/
def code : FailureKind → String
  | authorization => "ERR_AUTHORIZATION"
  | validation => "ERR_VALIDATION"
  | lifecycleVeto => "ERR_LIFECYCLE_VETO"
  | persistence => "ERR_PERSISTENCE"
  | notFound => "ERR_NOT_FOUND"
  | serialization => "ERR_SERIALIZATION"
  | io => "ERR_IO"
  | internal => "ERR_INTERNAL"
  | endless | overflow => ""

/-- Only a store can do better on a second try. -/
def retryable : FailureKind → Bool
  | persistence => true
  | _ => false

end FailureKind

/-- A failure with the circumstances that are known. -/
structure Failure where
  kind : FailureKind
  op : Option String := none
  conceptId : Option String := none
  conceptType : Option String := none
  operation : Option String := none
  actor : Option String := none
  partition : Option String := none
  index : Option Nat := none
  rule : Option String := none
  requestId : Option String := none
  traceId : Option String := none
  message : String := ""
deriving DecidableEq, Inhabited

namespace Failure

/-- A failure of an activity of a store or of the surroundings. -/
def during (kind : FailureKind) (op message : String) : Failure :=
  { kind, op := some op, message }

/-- What stands for the outcome of a computation that has none, because it never ends. -/
def endless : Failure := { kind := .endless }

/-- What stands for the outcome of arithmetic beyond the range of its numbers. -/
def overflow : Failure := { kind := .overflow }

/-- The failure at the operation of a given index, unless it already names one. -/
def atIndex (f : Failure) (index : Nat) : Failure :=
  { f with index := some (f.index.getD index) }

/-- A circumstance in brackets, if it is known. -/
def aside (intro : String) (value : Option String) : String :=
  match value with
  | some v => s!" ({intro}{v})"
  | none => ""

/-- The text of a failure: code, activity, message, and where it happened. -/
def text (f : Failure) : String :=
  "[" ++ f.kind.code ++ "]" ++
    (match f.op with
      | some op => s!" in '{op}'"
      | none => "") ++
    (if f.message.isEmpty then "" else ": " ++ f.message) ++
    aside "operation #" (f.index.map toString) ++ aside "concept_id: " f.conceptId ++
    aside "rule: " f.rule

end Failure

/-- The causes of failure that the ledger itself finds, with the texts that describe them. -/
inductive Fault where
  | conceptNotFound (conceptId partition : String)
  | containerNotFound (conceptId containerId partition : String)
  | associationTargetNotFound (conceptId property targetId : String)
  | invalidContainment (conceptId conceptType containerType : String)
  | missingContainer (conceptId conceptType : String)
  | rootWithContainer (conceptId conceptType : String)
  | duplicateConcept (conceptId : String)
  | typeMismatch (conceptId expected actual : String)
  | containmentImmutable (conceptId property reason : String)
  | invalidProperty (conceptId property reason : String)
  | invalidPartition (name : String)
  | cascadeLimitExceeded (limit : Nat)
  | accessDenied (actor conceptType conceptId operation : String)
  | lifecycleVeto (rule conceptId operation reason : String)
  | revisionConflict (conceptId : String) (submitted stored : Nat)
  | storeUnavailable (message : String)
  | serialization (message : String)
  | internal (message : String)
deriving DecidableEq

namespace Fault

/-- What a fault says. -/
def message : Fault → String
  | conceptNotFound id partition => s!"Concept not found: {id} in {partition}"
  | containerNotFound id container partition =>
    s!"Container {container} of {id} not found in {partition}"
  | associationTargetNotFound id property target =>
    s!"Association {property} of {id} references missing concept {target}"
  | invalidContainment id type container => s!"{type} {id} cannot be contained by {container}"
  | missingContainer id type => s!"{type} {id} requires a container"
  | rootWithContainer id type => s!"Root {type} {id} cannot have a container"
  | duplicateConcept id => s!"Concept already exists: {id}"
  | typeMismatch id expected actual => s!"Concept {id} is a {actual}, not a {expected}"
  | containmentImmutable id property reason =>
    s!"Containment of {id} cannot change through {property}: {reason}"
  | invalidProperty id property reason => s!"Property {property} of {id} is invalid: {reason}"
  | invalidPartition name => s!"Unknown partition name: {name}"
  | cascadeLimitExceeded limit => s!"Batch exceeded {limit} cascaded operations"
  | accessDenied actor type id operation =>
    s!"{actor} is not allowed to {operation} {type} {id}"
  | lifecycleVeto rule id operation reason =>
    s!"Lifecycle rule {rule} rejected {operation} of {id}: {reason}"
  | revisionConflict id submitted stored =>
    s!"Revision conflict on {id}: submitted {submitted}, stored {stored}"
  | storeUnavailable message => s!"Store unavailable: {message}"
  | serialization message => s!"Serialization error: {message}"
  | internal message => s!"Internal error: {message}"

/-- The failure that a fault leads to. -/
def failure (f : Fault) : Failure :=
  let message := f.message
  match f with
  | conceptNotFound id partition =>
    { kind := .notFound, conceptId := some id, partition := some partition, message }
  | containerNotFound id _ partition =>
    { kind := .notFound, conceptId := some id, partition := some partition,
      op := some "resolve_container", message }
  | associationTargetNotFound id _ _ =>
    { kind := .notFound, conceptId := some id, op := some "resolve_association", message }
  | invalidContainment id type _ | missingContainer id type | rootWithContainer id type =>
    { kind := .validation, conceptId := some id, conceptType := some type, message }
  | duplicateConcept id | typeMismatch id _ _ | containmentImmutable id _ _
  | invalidProperty id _ _ =>
    { kind := .validation, conceptId := some id, message }
  | invalidPartition name => { kind := .validation, partition := some name, message }
  | cascadeLimitExceeded _ => { kind := .validation, op := some "cascade", message }
  | accessDenied actor type id operation =>
    { kind := .authorization, actor := some actor, conceptType := some type,
      conceptId := some id, operation := some operation, message }
  | lifecycleVeto rule id operation _ =>
    { kind := .lifecycleVeto, rule := some rule, conceptId := some id,
      operation := some operation, message }
  | revisionConflict id _ _ =>
    { kind := .persistence, op := some "revision_check", conceptId := some id, message }
  | storeUnavailable _ => { kind := .persistence, message }
  | serialization _ => { kind := .serialization, message }
  | internal _ => { kind := .internal, message }

end Fault

/-- The failed answer of a fault. -/
def fail {α : Type} (f : Fault) : Except Failure α := .error f.failure

end ConceptLedger
