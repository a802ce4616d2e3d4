import ConceptLedger.Proofs.Containment.Integrity

/-!
Invariants of whole histories that speak about waiting operations. Between batches nothing waits;
while one is running, the operation that was submitted last and its cascades do. Such an invariant
has to hold again whenever the first of them has been executed.
-/

namespace ConceptLedger

/-- What is stored, partition by partition. -/
abbrev Stock := Partition → ConceptId → Option Concept

namespace Memory

open Batch

/-- A batch among the visits submits an operation in a partition. -/
def Submitted (visits : List Visit) (p : Partition) (operation : Operation) : Prop :=
  ∃ policy request now ids, Visit.batch policy request now ids ∈ visits ∧ request.partition = p ∧
    operation ∈ request.operations

/-- What holds of the empty stock, allows every submitted operation to wait alone, and is kept by
every effect under the standard registry holds after the visits, when nothing waits. -/
theorem after_keeps_queue {I : Stock → List (Partition × Operation) → Prop} {visits : List Visit}
    (standard : ∀ v ∈ visits, v.policy.registry = Registry.standard)
    (start : I (fun _ _ => none) [])
    (enter : ∀ f p operation, Submitted visits p operation → I f [] → I f [(p, operation)])
    (step : ∀ (env : Setting) (d d' : Draft) (p : Partition) (operation : Operation)
      (waiting : List (Partition × Operation)) (cascades : List Cascade),
      env.registry = Registry.standard → d.Forested → I d.find? ((p, operation) :: waiting) →
      Effect env p d operation cascades d' → I d'.find? (waiting ++ cascades.map (place p))) :
    I (Database.after visits).contents.find? [] := by
  refine (after_keeps_committed (P := fun s => s.Forested ∧ I s.find? [])
    ⟨fun _ => Forest.empty, start⟩ ?_).2
  intro policy request now ids member before after outcome holds committed
  have registry : (policy.settingFor request.actor).registry = Registry.standard := standard _ member
  refine ⟨committed.forested registry holds.1, ?_⟩
  obtain ⟨v, ids, s, rfl, rfl, run⟩ := committed.run
  obtain ⟨_, s₁, applied, finished⟩ := Step.bind_eq_ok_iff.mp run
  -- while the batch runs the draft takes the place of the stored contents
  have opened : (State.draft { view := v, ids }).Forested ∧
      I (State.draft { view := v, ids }).find? [] := holds
  have reached : s₁.draft.Forested ∧ I s₁.draft.find? [] := by
    refine applyAll_keeps (I := fun d queue => d.Forested ∧ I d.find? queue) ?_ ?_ opened applied
    · intro d d' p operation waiting cascades both effect
      exact ⟨effect.forested registry both.1, step _ _ _ _ _ _ _ registry both.1 both.2 effect⟩
    · intro d operation inside both
      exact ⟨both.1, enter _ _ _ ⟨policy, request, now, _, member, rfl, inside⟩ both.2⟩
  obtain ⟨records, contents, -, -⟩ := finish_ok finished
  rw [contents]
  exact reached.2

end Memory

end ConceptLedger
