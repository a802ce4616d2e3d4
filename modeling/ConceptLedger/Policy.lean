import ConceptLedger.Batch.Run
import ConceptLedger.Hook.Standard
import ConceptLedger.Read.History

/-!
The entry points of a store: batches, which take effect as a whole or not at all, and reads, which
see one consistent state. Both report in a journal when they start and how they end.
-/

namespace ConceptLedger

/-- The rules by which a store is run. -/
structure Policy where
  gate : Gate := ({} : ScopeDefaults).gate
  registry : Registry := Registry.standard
  /-- The greatest number of cascades that one operation may cause. -/
  limit : Nat := 10000

/-- What comes of a batch besides the store: its answer, what was reported and noted, and the
identifiers that are left. -/
structure Submission where
  result : Except Failure BatchOutcome
  journal : Journal
  notes : List Note
  ids : IdSupply

/-- What comes of a read. -/
structure Reading (α : Type) where
  result : Except Failure α
  journal : Journal

namespace Policy

variable {δ σ α : Type} [ConceptStore σ] [Transactional δ σ]

/-- What a policy fixes for the batches of an actor. -/
def settingFor (policy : Policy) (actor : Actor) : Batch.Setting :=
  ⟨policy.gate, policy.registry, actor, policy.limit⟩

/-- The event with which a batch ends. -/
def closing (context : RequestContext) (result : Except Failure BatchOutcome) : Event :=
  match result with
  | .ok outcome => .batchCommitted context.requestId outcome
  | .error f => .batchRejected context.requestId f

/-- Submits a batch at a reading of the clock. A failed batch leaves the contents of the store as
they were. -/
def submit (policy : Policy) (request : BatchRequest) (now : Instant) (ids : IdSupply)
    (db : δ) : Submission × δ :=
  let context := request.context
  let started := Event.batchStarted context.requestId request.partition
    request.operations.length request.actor.id
  let report (result : Except Failure BatchOutcome) (s : Option (Batch.State σ)) : Submission :=
    let result := result.mapError (·.forRequest context)
    { result
      journal := started :: (s.elim [] (·.journal)) ++ [closing context result]
      notes := s.elim [] (·.notes)
      ids := s.elim ids (·.ids) }
  match Transactional.openWrite now db with
  | (.error f, db) => (report (.error f) none, db)
  | (.ok view, db) =>
    match Batch.run (policy.settingFor request.actor) request.partition request.operations
        { view, ids } with
    | (.ok outcome, s) => (report (.ok outcome) (some s), Transactional.commit db s.view)
    | (.error f, s) => (report (.error f) (some s), db)

/-- Runs a read on a snapshot, with a reader for an actor in a partition. -/
def reading (policy : Policy) (op : String) (actor : Actor) (p : Partition)
    (options : ReadOptions) (now : Instant) (body : Reader σ → ReadStep α) (db : δ) :
    Reading α × δ :=
  let started := Event.readStarted op p
  let report (result : Except Failure α) (events : Journal) : Reading α :=
    let ended :=
      match result with
      | .ok _ => Event.readEnded op
      | .error f => .readFailed op f
    ⟨result, started :: events ++ [ended]⟩
  match Transactional.openRead now db with
  | (.error f, db) => (report (.error f) [], db)
  | (.ok view, db) =>
    match body ⟨view, policy.gate, actor, p, options⟩ [] with
    | (result, events) => (report result events, db)

/-- Reads concepts. -/
def readShallow (policy : Policy) (actor : Actor) (p : Partition) (ids : List ConceptId)
    (options : ReadOptions) (now : Instant) (db : δ) : Reading (List Concept) × δ :=
  policy.reading "get_shallow" actor p options now (fun r => r.shallow ids none) db

/-- Reads concepts with all they contain. -/
def readDeep (policy : Policy) (actor : Actor) (p : Partition) (ids : List ConceptId)
    (options : ReadOptions) (now : Instant) (db : δ) : Reading (List Concept) × δ :=
  policy.reading "get_deep" actor p options now (fun r => r.deep ids none) db

/-- Reads concepts as they were at a bound. -/
def readAsOf (policy : Policy) (actor : Actor) (p : Partition) (ids : List ConceptId)
    (bound : AsOf) (now : Instant) (db : δ) : Reading (List Concept) × δ :=
  policy.reading "resolve_as_of" actor p {} now (fun r => Step.lift (r.asOf ids bound)) db

/-- Reads the records of a concept. -/
def readHistory (policy : Policy) (actor : Actor) (p : Partition) (id : ConceptId)
    (now : Instant) (db : δ) : Reading (List RevisionRecord) × δ :=
  policy.reading "history" actor p {} now (fun r => Step.lift (r.history id)) db

end Policy

end ConceptLedger
