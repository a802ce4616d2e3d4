import ConceptLedger.Read.Resolve

/-!
Reading the past. A read at a bound decides by the states that were valid there, containers
included; the history of a concept is shown to those who may read its newest state.
-/

namespace ConceptLedger.Reader

variable {σ : Type} [ConceptStore σ]

/-- The container of a concept at a bound, looked for among the given states first. -/
def containerAsOf (r : Reader σ) (states : SortedMap ConceptId Concept) (bound : AsOf)
    (c : Concept) : Except Failure (Option Concept) :=
  match c.container with
  | none => .ok none
  | some id =>
    match states.find? id with
    | some container => .ok (some container)
    | none =>
      (ConceptStore.statesAsOf r.view r.partition [id] bound).map fun found => found.find? id

/-- The state of one identifier at a bound, if there is one and it may be read. -/
def visibleAsOf (r : Reader σ) (states : SortedMap ConceptId Concept) (bound : AsOf)
    (id : ConceptId) : Except Failure (Option Concept) :=
  match states.find? id with
  | none => .ok none
  | some c =>
    (r.containerAsOf states bound c).map fun container =>
      if r.permits (r.gate.contextFor r.actor r.partition container) c then some c else none

/-- The states of identifiers at a bound, in request order, as far as they may be read. -/
def asOf (r : Reader σ) (ids : List ConceptId) (bound : AsOf) :
    Except Failure (List Concept) := do
  let states ← ConceptStore.statesAsOf r.view r.partition ids bound
  let visible ← ids.mapM (r.visibleAsOf states bound)
  pure (visible.filterMap id)

/-- The records of a concept. Whether they may be read is decided by the newest state among them
and the container that is stored now. -/
def history (r : Reader σ) (id : ConceptId) : Except Failure (List RevisionRecord) := do
  let records ← ConceptStore.history r.view r.partition id
  match (records.filterMap (·.state)).getLast? with
  | none => pure []
  | some latest =>
    let security ← r.contextOf latest
    pure (if r.permits security latest then records else [])

end ConceptLedger.Reader
