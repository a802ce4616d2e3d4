import ConceptLedger.Batch.Execute

/-!
Running a batch. An operation is followed by the cascades it causes, first come first served, up
to a limit; when all operations have run, every touched concept is logged under the revision of
its partition.
-/

namespace ConceptLedger.Batch

variable {σ : Type} [ConceptStore σ]

/-- The partition in which a cascade runs, if it was caused in `p`. -/
def place (p : Partition) (c : Cascade) : Partition × Operation :=
  (c.partition.getD p, c.operation)

/-- Executes the waiting operations in order; cascades join at the end. `spawned` counts the
cascades so far. The number of turns is one more than the limit at most. -/
def drain (env : Setting) : Nat → Nat → List (Partition × Operation) → BatchStep σ Unit
  | _, _, [] => pure ()
  | 0, _, _ :: _ => Step.fault (.cascadeLimitExceeded env.limit)
  | turns + 1, spawned, (p, operation) :: waiting => do
    let cascades ← execute env p operation
    let spawned := spawned + cascades.length
    if env.limit < spawned then Step.fault (.cascadeLimitExceeded env.limit)
    else drain env turns spawned (waiting ++ cascades.map (place p))

/-- Applies one operation of a batch with all its cascades. -/
def apply (env : Setting) (p : Partition) (operation : Operation) : BatchStep σ Unit :=
  drain env (env.limit + 1) 0 [(p, operation)]

/-- Applies the operations of a batch in order; a failure names the operation it came from. -/
def applyAll (env : Setting) (p : Partition) : Nat → List Operation → BatchStep σ Unit
  | _, [] => pure ()
  | index, operation :: rest => do
    Step.mapError (·.atIndex index) (apply env p operation)
    applyAll env p (index + 1) rest

/-- What became of a touched concept. One that this batch created and removed again has left no
trace. -/
def settle (s : State σ) (t : Touch) : Except Failure (Option (Partition × Change)) :=
  let { partition, id } := t.address
  (ConceptStore.find? s.view partition id).map fun found =>
    match found, s.removed.find? t.address, t.existed with
    | some c, _, _ => some (partition, ⟨id, c.conceptType, some c⟩)
    | none, some type, true => some (partition, ⟨id, type, none⟩)
    | none, _, _ => none

/-- Logs the changes of one partition under its revision. -/
def logPartition (changes : List (Partition × Change)) (p : Partition) :
    BatchStep σ Unit := do
  match ← Step.gets fun s => s.allocated.find? p with
  | none => Step.fault (.internal s!"no revision allocated in {p.name}")
  | some revision =>
    let changed := (changes.filter fun c => c.1 = p).map (·.2)
    let _ ← onView (ConceptStore.logChanges p revision changed)
    pure ()

/-- Logs all changes and tells the outcome. -/
def finish (p : Partition) : BatchStep σ BatchOutcome := do
  let settled ← Step.look fun s => s.touched.mapM (settle s)
  let changes := settled.filterMap id
  Step.forEach (logPartition changes) (SortedSet.ofMembers (changes.map (·.1))).elements
  let allocated ← Step.gets (·.allocated)
  pure
    { revision := allocated.find? p
      revisions := allocated
      concepts := changes.filterMap (·.2.state)
      removed := (changes.filter fun c => c.2.state.isNone).map (·.2.id) }

/-- Runs the operations of a batch and logs what they changed. -/
def run (env : Setting) (p : Partition) (operations : List Operation) :
    BatchStep σ BatchOutcome := do
  applyAll env p 0 operations
  finish p

end ConceptLedger.Batch
