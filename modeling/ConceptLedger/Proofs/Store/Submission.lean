import ConceptLedger.Proofs.Batch.Cut
import ConceptLedger.Proofs.Store.History

/-!
Submissions to a store that is available: the batch runs on a copy of the contents, and the answer
is that of the run.
-/

namespace ConceptLedger.Memory

/-- The view on which a batch is run. -/
def Database.opened (db : Database) (now : Instant) : View :=
  ⟨db.contents, db.nextTime now, true, db.rejectsLog⟩

/-- The batch of a request on the view that is opened for it. -/
def Database.attempt (db : Database) (policy : Policy) (request : BatchRequest) (now : Instant)
    (ids : IdSupply) : Except Failure BatchOutcome × Batch.State View :=
  Batch.run (policy.settingFor request.actor) request.partition request.operations
    { view := db.opened now, ids }

variable {db : Database} {policy : Policy} {request : BatchRequest} {now : Instant} {ids : IdSupply}

theorem submit_of_available (available : db.unavailable = false) :
    (policy.submit request now ids db).1.result =
        (db.attempt policy request now ids).1.mapError (·.forRequest request.context) ∧
      (policy.submit request now ids db).2.contents =
        match (db.attempt policy request now ids).1 with
        | .ok _ => (db.attempt policy request now ids).2.view.contents
        | .error _ => db.contents := by
  have opened : Transactional.openWrite now db =
      (.ok (db.opened now), { db with lastTime := some (db.nextTime now) }) :=
    openView_of_available true now available
  unfold Policy.submit
  rw [opened]
  dsimp only
  cases run : db.attempt policy request now ids with
  | mk result s =>
    unfold Database.attempt at run
    rw [run]
    cases result with
    | ok outcome => exact ⟨rfl, rfl⟩
    | error f => exact ⟨rfl, rfl⟩

theorem submit_of_ok {outcome : BatchOutcome} {s : Batch.State View}
    (available : db.unavailable = false)
    (run : db.attempt policy request now ids = (.ok outcome, s)) :
    (policy.submit request now ids db).1.result = .ok outcome ∧
      (policy.submit request now ids db).2.contents = s.view.contents := by
  obtain ⟨result, contents⟩ := submit_of_available available
  rw [run] at result contents
  exact ⟨result, contents⟩

theorem submit_of_error {f : Failure} {s : Batch.State View} (available : db.unavailable = false)
    (run : db.attempt policy request now ids = (.error f, s)) :
    (policy.submit request now ids db).1.result = .error (f.forRequest request.context) ∧
      (policy.submit request now ids db).2.contents = db.contents := by
  obtain ⟨result, contents⟩ := submit_of_available available
  rw [run] at result contents
  exact ⟨result, contents⟩

end ConceptLedger.Memory
