import ConceptLedger.Store.Basic

/-!
The calls on a view of a store as data, so that a list of them can be run in one transaction. A
call that fails does not end the transaction, and what it did before it failed stays.
-/

namespace ConceptLedger

/-- A call on a view of a store. -/
inductive StoreCall where
  | read (p : Partition) (type : Option ConceptType) (ids : Option (List ConceptId))
  | readCached (p : Partition) (ids : List ConceptId)
  | find (p : Partition) (id : ConceptId)
  | write (p : Partition) (c : Concept)
  | update (p : Partition) (c : Concept)
  | delete (p : Partition) (id : ConceptId)
  | currentRevision (p : Partition)
  | raiseRevision (p : Partition)
  | append (records : List RevisionRecord)
  | revisionsAsOf (p : Partition) (ids : List ConceptId) (bound : AsOf)
  | history (p : Partition) (id : ConceptId)
  | nextRevision (p : Partition)
  | logChanges (p : Partition) (revision : UInt64) (changed : List Change)
  | statesAsOf (p : Partition) (ids : List ConceptId) (bound : AsOf)

/-- What a call answers. -/
inductive StoreAnswer where
  | done
  | flag (value : Bool)
  | revision (number : UInt64)
  | concept (found : Option Concept)
  | concepts (found : List Concept)
  | records (found : List RevisionRecord)
  | states (found : SortedMap ConceptId Concept)

namespace StoreCall

variable {σ : Type} [ConceptStore σ]

/-- Makes a call on a view. -/
def run (call : StoreCall) : Step σ StoreAnswer :=
  match call with
  | read p type ids => .concepts <$> Step.look fun v => ConceptStore.read v p type ids
  | readCached p ids => .concepts <$> Step.look fun v => ConceptStore.readCached v p ids
  | find p id => .concept <$> Step.look fun v => ConceptStore.find? v p id
  | write p c => .flag <$> ConceptStore.write p c
  | update p c => .flag <$> ConceptStore.update p c
  | delete p id => .flag <$> ConceptStore.delete p id
  | currentRevision p => .revision <$> Step.look fun v => ConceptStore.currentRevision v p
  | raiseRevision p => .revision <$> ConceptStore.raiseRevision p
  | append records => (fun _ => .done) <$> ConceptStore.append records
  | revisionsAsOf p ids bound =>
    .records <$> Step.look fun v => ConceptStore.revisionsAsOf v p ids bound
  | history p id => .records <$> Step.look fun v => ConceptStore.history v p id
  | nextRevision p => .revision <$> ConceptStore.nextRevision p
  | logChanges p revision changed =>
    .records <$> ConceptStore.logChanges p revision changed
  | statesAsOf p ids bound => .states <$> Step.look fun v => ConceptStore.statesAsOf v p ids bound

end StoreCall

end ConceptLedger
