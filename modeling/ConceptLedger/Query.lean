import ConceptLedger.Policy

/-!
Queries: the four ways to read a store, as data.
-/

namespace ConceptLedger

/-- What is read from a partition. -/
inductive Query where
  | shallow (ids : List ConceptId) (options : ReadOptions)
  | deep (ids : List ConceptId) (options : ReadOptions)
  | asOf (ids : List ConceptId) (bound : AsOf)
  | history (id : ConceptId)

/-- The answer to a query: concepts, or the records of one concept. -/
inductive QueryAnswer where
  | concepts (found : List Concept)
  | records (found : List RevisionRecord)

namespace Reading

/-- A reading with its answer changed. -/
def map {α β : Type} (f : α → β) (r : Reading α) : Reading β := ⟨r.result.map f, r.journal⟩

end Reading

namespace Policy

variable {δ σ : Type} [ConceptStore σ] [Transactional δ σ]

/-- Answers a query of an actor at a reading of the clock. -/
def answer (policy : Policy) (actor : Actor) (p : Partition) (query : Query) (now : Instant)
    (db : δ) : Reading QueryAnswer × δ :=
  match query with
  | .shallow ids options =>
    let (r, db) := policy.readShallow actor p ids options now db
    (r.map .concepts, db)
  | .deep ids options =>
    let (r, db) := policy.readDeep actor p ids options now db
    (r.map .concepts, db)
  | .asOf ids bound =>
    let (r, db) := policy.readAsOf actor p ids bound now db
    (r.map .concepts, db)
  | .history id =>
    let (r, db) := policy.readHistory actor p id now db
    (r.map .records, db)

end Policy

end ConceptLedger
