import ConceptLedger.Concept.Basic
import ConceptLedger.Partition

/-!
Revision records: what a concept was after a batch, or that it was gone, and the bounds up to
which a reader looks into the log.
-/

namespace ConceptLedger

/-- One entry of the revision log. A record without a state is a removal. -/
structure RevisionRecord where
  partition : Partition
  conceptId : ConceptId
  conceptType : ConceptType
  revision : UInt64
  state : Option Concept
  committedAt : Instant
deriving DecidableEq

/-- A bound on the log: up to a revision or up to an instant. -/
inductive AsOf where
  | revision (bound : UInt64)
  | instant (bound : Instant)
deriving DecidableEq

namespace AsOf

/-- Whether a record is within a bound. -/
def includes (bound : AsOf) (r : RevisionRecord) : Bool :=
  match bound with
  | revision n => r.revision ≤ n
  | instant t => r.committedAt.atMost t

end AsOf

/-- A concept that a batch changed, with its state afterwards. -/
structure Change where
  id : ConceptId
  conceptType : ConceptType
  state : Option Concept
deriving DecidableEq

end ConceptLedger
