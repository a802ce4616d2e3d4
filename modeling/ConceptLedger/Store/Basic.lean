import ConceptLedger.Revision
import ConceptLedger.Step

/-!
What a store offers inside a transaction: current concepts, the append-only revision log and a
revision counter for each partition. A store opens views; a view that is written to takes effect
when it is committed.
-/

namespace ConceptLedger

/-- The calls on a view of a store. -/
class ConceptStore (σ : Type) where
  /-- Current concepts: those of the given identifiers in request order, or all by ascending
  identifier; of one type or of any. -/
  read : σ → Partition → Option ConceptType → Option (List ConceptId) →
    Except Failure (List Concept)
  /-- The newest logged states of identifiers, in request order. -/
  readCached : σ → Partition → List ConceptId → Except Failure (List Concept)
  /-- Adds a concept; answers whether there was none with its identifier. -/
  write : Partition → Concept → Step σ Bool
  /-- Replaces a concept; answers whether there was one with its identifier. -/
  update : Partition → Concept → Step σ Bool
  /-- Removes a concept; answers whether there was one with the identifier. -/
  delete : Partition → ConceptId → Step σ Bool
  /-- The revision counter of a partition. -/
  currentRevision : σ → Partition → Except Failure UInt64
  /-- Raises the revision counter of a partition. -/
  raiseRevision : Partition → Step σ UInt64
  /-- Appends records to the log. -/
  append : List RevisionRecord → Step σ Unit
  /-- The newest record of each identifier within a bound, in request order. -/
  revisionsAsOf : σ → Partition → List ConceptId → AsOf → Except Failure (List RevisionRecord)
  /-- All records of an identifier by ascending revision. -/
  history : σ → Partition → ConceptId → Except Failure (List RevisionRecord)
  /-- The time of the transaction. -/
  time : σ → Instant
  /-- At least the number of different concepts that reads can answer. -/
  extent : σ → Nat

namespace ConceptStore

variable {σ : Type} [ConceptStore σ]

/-- The current concept of an identifier. -/
def find? (v : σ) (p : Partition) (id : ConceptId) : Except Failure (Option Concept) :=
  (read v p none (some [id])).map List.head?

/-- Refuses a new revision that is not above the counter that was read before. -/
def checkedRevision (p : Partition) (committed next : UInt64) : Except Failure UInt64 :=
  if next ≤ committed then
    fail (.internal s!"revision allocator for {p.name} returned {next} after {committed}")
  else .ok next

/-- Takes the next revision of a partition. -/
def nextRevision (p : Partition) : Step σ UInt64 := do
  let committed ← Step.look fun v => currentRevision v p
  let next ← raiseRevision p
  Step.lift (checkedRevision p committed next)

/-- The record of a change. A state must carry the revision under which it is recorded. -/
def recordOf (time : Instant) (p : Partition) (revision : UInt64) (change : Change) :
    Except Failure RevisionRecord :=
  match change.state with
  | some state =>
    if state.revisionNumber = revision then
      .ok ⟨p, change.id, change.conceptType, revision, change.state, time⟩
    else
      fail (.internal
        s!"{change.id.text} carries revision {state.revisionNumber} but is recorded at {revision}")
  | none => .ok ⟨p, change.id, change.conceptType, revision, none, time⟩

/-- Logs the changes of a batch in a partition under one revision and one time. -/
def logChanges (p : Partition) (revision : UInt64) (changed : List Change) :
    Step σ (List RevisionRecord) := do
  let records ← Step.look fun v => changed.mapM (recordOf (time v) p revision)
  append records
  pure records

/-- The states of identifiers within a bound, without those that are removals. -/
def statesAsOf (v : σ) (p : Partition) (ids : List ConceptId) (bound : AsOf) :
    Except Failure (SortedMap ConceptId Concept) :=
  (revisionsAsOf v p ids bound).map fun records =>
    SortedMap.ofList (records.filterMap fun r => r.state.map (r.conceptId, ·))

end ConceptStore

/-- A store that opens views of itself. -/
class Transactional (δ : Type) (σ : outParam Type) where
  /-- Opens a view for writing, given the reading of the clock. -/
  openWrite : Instant → Step δ σ
  /-- Opens a view for reading, given the reading of the clock. -/
  openRead : Instant → Step δ σ
  /-- Takes over the contents of a view that was opened for writing. -/
  commit : δ → σ → δ

namespace Transactional

variable {δ σ α : Type} [Transactional δ σ]

/-- Runs a step on a view for writing; its writes take effect when it succeeds. -/
def transact (now : Instant) (body : Step σ α) : Step δ α := fun db =>
  match openWrite now db with
  | (.error e, db) => (.error e, db)
  | (.ok view, db) =>
    match body view with
    | (.ok a, view) => (.ok a, commit db view)
    | (.error e, _) => (.error e, db)

/-- Runs a step on a view for reading. -/
def snapshot (now : Instant) (body : Step σ α) : Step δ α := fun db =>
  match openRead now db with
  | (.error e, db) => (.error e, db)
  | (.ok view, db) => ((body view).1, db)

end Transactional

end ConceptLedger
