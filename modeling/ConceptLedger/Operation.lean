import ConceptLedger.Actor
import ConceptLedger.Concept.Basic
import ConceptLedger.Failure

/-!
Operations on concepts, the batches that carry them and the outcomes of batches.
-/

namespace ConceptLedger

/-- What is done to a concept. -/
inductive OperationKind where
  | read
  | create
  | update
  | delete
deriving DecidableEq

namespace OperationKind

/-- All kinds. -/
def all : List OperationKind := [.read, .create, .update, .delete]

/-- The written name of a kind. -/
def name : OperationKind → String
  | read => "read"
  | create => "create"
  | update => "update"
  | delete => "delete"

/-- The kind of a written name. -/
def ofName? (name : String) : Option OperationKind := all.find? fun k => k.name = name

end OperationKind

/-- One change to one concept. -/
inductive Operation where
  | create (concept : Concept) (orderKey : Option Int64)
  | update (concept : Concept)
  | delete (id : ConceptId) (conceptType : ConceptType)
deriving DecidableEq, Inhabited

namespace Operation

/-- The kind of an operation. -/
def kind : Operation → OperationKind
  | create _ _ => .create
  | update _ => .update
  | delete _ _ => .delete

/-- The concept that an operation is about. -/
def targetId : Operation → ConceptId
  | create c _ => c.id
  | update c => c.id
  | delete id _ => id

/-- The type that an operation takes its concept to have. -/
def conceptType : Operation → ConceptType
  | create c _ => c.conceptType
  | update c => c.conceptType
  | delete _ t => t

end Operation

/-- An operation that a hook asks for, in a partition or in that of the operation it follows. -/
structure Cascade where
  partition : Option Partition
  operation : Operation
deriving DecidableEq

/-- The names by which a submission can be found again in logs and failures. -/
structure RequestContext where
  requestId : String
  traceId : Option String := none
deriving DecidableEq, Inhabited

/-- Operations to be applied together or not at all. -/
structure BatchRequest where
  context : RequestContext
  actor : Actor
  partition : Partition
  operations : List Operation
deriving DecidableEq

/-- What a batch did: the revisions it took, the concepts it left changed and those it removed. -/
structure BatchOutcome where
  revision : Option UInt64
  revisions : SortedMap Partition UInt64
  concepts : List Concept
  removed : List ConceptId
deriving DecidableEq

namespace BatchOutcome

/-- The concept of an identifier among the changed ones. -/
def concept? (o : BatchOutcome) (id : ConceptId) : Option Concept :=
  o.concepts.find? fun c => c.id = id

end BatchOutcome

namespace Failure

/-- The text with which a batch is rejected. -/
def batchText (f : Failure) : String :=
  match f.index with
  | some i => s!"batch rejected at operation {i}: {f.text}"
  | none => "batch rejected: " ++ f.text

/-- The failure as it is reported for a request. -/
def forRequest (f : Failure) (context : RequestContext) : Failure :=
  { f with requestId := some context.requestId, traceId := context.traceId.or f.traceId }

end Failure

end ConceptLedger
