import ConceptLedger.Proofs.Batch.Write

/-!
Operations with all that they cause. A queue of operations is worked off by a chain of effects, in
which the cascades of each one join at the end.
-/

namespace ConceptLedger.Batch

open Step

/-- The effects by which a queue is worked off until nothing waits. -/
inductive Chain (env : Setting) : Draft → List (Partition × Operation) → Draft → Prop
  | done {d : Draft} : Chain env d [] d
  | next {d d' d'' : Draft} {p : Partition} {operation : Operation} {cascades : List Cascade}
      {waiting : List (Partition × Operation)} (effect : Effect env p d operation cascades d')
      (later : Chain env d' (waiting ++ cascades.map (place p)) d'') :
      Chain env d ((p, operation) :: waiting) d''

variable {env : Setting} {p : Partition} {s t : State Memory.View} {u : Unit}

theorem drain_chain {turns spawned : Nat} {queue : List (Partition × Operation)}
    (run : drain env turns spawned queue s = (.ok u, t)) : Chain env s.draft queue t.draft := by
  induction turns generalizing spawned queue s with
  | zero =>
    cases queue with
    | nil =>
      obtain ⟨-, rfl⟩ := pure_eq_ok_iff.mp run
      exact .done
    | cons => exact absurd run fault_ne_ok
  | succ turns ih =>
    cases queue with
    | nil =>
      obtain ⟨-, rfl⟩ := pure_eq_ok_iff.mp run
      exact .done
    | cons first waiting =>
      obtain ⟨q, operation⟩ := first
      obtain ⟨cascades, s₁, executed, rest⟩ := bind_eq_ok_iff.mp run
      split at rest
      · exact absurd rest fault_ne_ok
      · exact .next (execute_ok executed) (ih rest)

/-- A batch of one operation is a chain that begins with it. -/
theorem applyAll_single_chain {index : Nat} {operation : Operation}
    (run : applyAll env p index [operation] s = (.ok u, t)) :
    Chain env s.draft [(p, operation)] t.draft := by
  obtain ⟨_, s₁, applied, rest⟩ := bind_eq_ok_iff.mp run
  obtain ⟨-, rfl⟩ := pure_eq_ok_iff.mp rest
  exact drain_chain (mapError_eq_ok_iff.mp applied)

end ConceptLedger.Batch
