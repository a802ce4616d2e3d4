import ConceptLedger.Batch.Run

/-!
Cutting a batch short. The operations of a batch run one after the other, so that what happens up
to an operation does not depend on those that follow it.
-/

namespace ConceptLedger.Batch

open Step

variable {σ : Type} [ConceptStore σ] {env : Setting} {p : Partition} {s t : State σ}

/-- Where the first operations succeed, the others go on from there. -/
theorem applyAll_append_ok {index : Nat} {front : List Operation} {u : Unit}
    (run : applyAll env p index front s = (.ok u, t)) (back : List Operation) :
    applyAll env p index (front ++ back) s = applyAll env p (index + front.length) back t := by
  induction front generalizing index s with
  | nil =>
    obtain ⟨-, rfl⟩ := pure_eq_ok_iff.mp run
    rfl
  | cons operation rest ih =>
    obtain ⟨_, middle, first, later⟩ := bind_eq_ok_iff.mp run
    show (mapError (·.atIndex index) (apply env p operation) >>= fun _ =>
      applyAll env p (index + 1) (rest ++ back)) s = _
    rw [bind_of_ok first, ih later, List.length_cons]
    congr 1
    omega

/-- Where the first operations fail, the others are not reached. -/
theorem applyAll_append_error {index : Nat} {front : List Operation} {e : Failure}
    (run : applyAll env p index front s = (.error e, t)) (back : List Operation) :
    applyAll env p index (front ++ back) s = (.error e, t) := by
  induction front generalizing index s with
  | nil => cases run
  | cons operation rest ih =>
    show (mapError (·.atIndex index) (apply env p operation) >>= fun _ =>
      applyAll env p (index + 1) (rest ++ back)) s = _
    have run : (mapError (·.atIndex index) (apply env p operation) >>= fun _ =>
      applyAll env p (index + 1) rest) s = (.error e, t) := run
    cases first : mapError (·.atIndex index) (apply env p operation) s with
    | mk result middle =>
      cases result with
      | ok u =>
        rw [bind_of_ok first] at run ⊢
        exact ih run
      | error f =>
        rw [bind_of_error first] at run ⊢
        exact run

/-- Operations that all succeed do so up to any of them. -/
theorem applyAll_front_ok {index : Nat} {front back : List Operation} {u : Unit}
    (run : applyAll env p index (front ++ back) s = (.ok u, t)) :
    ∃ middle, applyAll env p index front s = (.ok (), middle) ∧
      applyAll env p (index + front.length) back middle = (.ok u, t) := by
  cases first : applyAll env p index front s with
  | mk result middle =>
    cases result with
    | ok u => exact ⟨middle, rfl, (applyAll_append_ok first back).symm.trans run⟩
    | error f => cases (applyAll_append_error first back).symm.trans run

end ConceptLedger.Batch
