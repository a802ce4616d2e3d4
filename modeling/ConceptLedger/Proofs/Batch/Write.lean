import ConceptLedger.Proofs.Batch.Effect
import Mathlib.Logic.Relation

/-!
The single writes that operations are made of. Whatever hooks and gate a batch has, it goes from
one draft to another by taking revisions and by adding, replacing and removing concepts, and it
does so under the revision it took in the partition. What each write keeps, a batch keeps.
-/

namespace ConceptLedger.Batch

open Relation

/-- One write of a batch. -/
inductive Write : Draft → Draft → Prop
  | take {d : Draft} {p : Partition} (untaken : d.allocated.find? p = none)
      (room : d.contents.counter p < d.revision p) : Write d (d.allot p)
  | add {d : Draft} {p : Partition} {c : Concept} (absent : d.find? p c.id = none)
      (stamped : d.allocated.find? p = some c.revisionNumber) : Write d (d.put p c false)
  | replace {d : Draft} {p : Partition} {c : Concept} (present : (d.find? p c.id).isSome = true)
      (stamped : d.allocated.find? p = some c.revisionNumber) : Write d (d.put p c true)
  | remove {d : Draft} {p : Partition} {entry : ConceptId × ConceptType}
      (present : (d.find? p entry.1).isSome = true)
      (taken : (d.allocated.find? p).isSome = true) : Write d (d.drop p entry)

/-- The writes of a batch, one after the other. -/
def Writes : Draft → Draft → Prop := ReflTransGen Write

namespace Draft

@[simp] theorem allocated_mark (d : Draft) (a : Address) (existed : Bool) :
    (d.mark a existed).allocated = d.allocated := by
  unfold mark
  split <;> rfl

@[simp] theorem allocated_put (d : Draft) (p : Partition) (c : Concept) (existed : Bool) :
    (d.put p c existed).allocated = d.allocated := d.allocated_mark _ _

@[simp] theorem allocated_drop (d : Draft) (p : Partition) (entry : ConceptId × ConceptType) :
    (d.drop p entry).allocated = d.allocated := d.allocated_mark _ _

end Draft

namespace Writes

variable {env : Setting} {p : Partition} {d d' : Draft}

theorem refl (d : Draft) : Writes d d := ReflTransGen.refl

theorem trans {d'' : Draft} (first : Writes d d') (later : Writes d' d'') : Writes d d'' :=
  ReflTransGen.trans first later

theorem next {d'' : Draft} (first : Writes d d') (last : Write d' d'') : Writes d d'' :=
  ReflTransGen.tail first last

theorem allot (room : d.allocated.find? p = none → d.contents.counter p < d.revision p) :
    Writes d (d.allot p) := by
  cases taken : d.allocated.find? p with
  | some r =>
    have same : d.allot p = d := by simp [Draft.allot, taken]
    rw [same]
    exact refl d
  | none => exact (refl d).next (.take taken (room taken))

theorem replaced {c : Concept}
    (room : d.allocated.find? p = none → d.contents.counter p < d.revision p)
    (present : (d.find? p c.id).isSome = true) :
    Writes d ((d.allot p).put p { c with revisionNumber := d.revision p } true) := by
  refine (allot room).next (.replace ?_ (d.allocated_allot p))
  simpa using present

theorem entered {r : UInt64} {child : Concept} {orderKey : Option Int64}
    {container container' : Option Concept} (taken : d.allocated.find? p = some r)
    (run : Entered p d r child orderKey container container' d') : Writes d d' := by
  cases run with
  | root => exact refl d
  | under attached present =>
    obtain ⟨q, -, -, value, -, rfl⟩ := Concept.attach_ok attached
    exact (refl d).next (.replace present taken)

theorem left {r : UInt64} {child : ConceptId} {container container' : Option Concept}
    (taken : d.allocated.find? p = some r) (run : Left p d r child container container' d') :
    Writes d d' := by
  cases run with
  | root => exact refl d
  | under present => exact (refl d).next (.replace (by simpa using present) taken)

theorem removed {order : List (ConceptId × ConceptType)} {r : UInt64}
    (taken : d.allocated.find? p = some r) (run : Removed p d order d') :
    Writes d d' ∧ d'.allocated.find? p = some r := by
  induction run with
  | done => exact ⟨refl _, taken⟩
  | next present later ih =>
    obtain ⟨rest, taken'⟩ := ih (by simpa using taken)
    have first : Write _ _ := .remove present (by rw [taken]; rfl)
    exact ⟨((refl _).next first).trans rest, taken'⟩

theorem created {c : Concept} {orderKey : Option Int64} {cascades : List Cascade}
    (effect : CreateEffect env p d c orderKey cascades d') : Writes d d' := by
  cases effect with
  | skipped => exact refl d
  | @stored _ _ c' _ _ _ _ _ _ room absent run _ =>
    have taken := d.allocated_allot p
    have added : Write (d.allot p)
        ((d.allot p).put p { c' with revisionNumber := d.revision p } false) :=
      .add (by simpa using absent) taken
    exact ((allot room).next added).trans (entered (by simpa using taken) run)

theorem updated {c : Concept} {cascades : List Cascade}
    (effect : UpdateEffect env p d c cascades d') : Writes d d' := by
  cases effect with
  | skipped => exact refl d
  | unchanged => exact refl d
  | stored _ _ _ room present _ => exact replaced room present

theorem deleted {id : ConceptId} {t : ConceptType} {cascades : List Cascade}
    (effect : DeleteEffect env p d id t cascades d') : Writes d d' := by
  cases effect with
  | skipped => exact refl d
  | kept => exact refl d
  | marked _ _ _ room present _ => exact replaced room present
  | removed _ _ room _ gone run _ =>
    obtain ⟨rest, taken⟩ := removed (d.allocated_allot p) gone
    exact ((allot room).trans rest).trans (left taken run)

/-- Every operation is made of writes. -/
theorem of_effect {operation : Operation} {cascades : List Cascade}
    (effect : Effect env p d operation cascades d') : Writes d d' := by
  cases effect with
  | create effect => exact created effect
  | update effect => exact updated effect
  | delete effect => exact deleted effect

/-- What each write keeps, a sequence of writes keeps. -/
theorem keeps {I : Draft → Prop} (step : ∀ d d', I d → Write d d' → I d')
    (start : I d) (run : Writes d d') : I d' := by
  induction run with
  | refl => exact start
  | tail _ last ih => exact step _ _ ih last

end Writes

section Queue

open Step

variable {env : Setting} {p : Partition} {s t : State Memory.View} {u : Unit}
  {I : Draft → List (Partition × Operation) → Prop}

/-- Working off a queue. An invariant may speak about the operations that still wait; it has to
hold again whenever the first of them has been executed and its cascades have joined. -/
theorem drain_keeps
    (step : ∀ d d' p operation waiting cascades, I d ((p, operation) :: waiting) →
      Effect env p d operation cascades d' → I d' (waiting ++ cascades.map (place p)))
    {turns spawned : Nat} {queue : List (Partition × Operation)} (start : I s.draft queue)
    (run : drain env turns spawned queue s = (.ok u, t)) : I t.draft [] := by
  induction turns generalizing spawned queue s with
  | zero =>
    cases queue with
    | nil =>
      obtain ⟨-, rfl⟩ := pure_eq_ok_iff.mp run
      exact start
    | cons => exact absurd run fault_ne_ok
  | succ turns ih =>
    cases queue with
    | nil =>
      obtain ⟨-, rfl⟩ := pure_eq_ok_iff.mp run
      exact start
    | cons first waiting =>
      obtain ⟨q, operation⟩ := first
      obtain ⟨cascades, s₁, executed, rest⟩ := bind_eq_ok_iff.mp run
      have after := step _ _ _ _ _ _ start (execute_ok executed)
      split at rest
      · exact absurd rest fault_ne_ok
      · exact ih after rest

/-- Applying the operations of a batch. Between them nothing waits; an invariant that holds there
has to hold with any one of the operations waiting too. -/
theorem applyAll_keeps
    (step : ∀ d d' p operation waiting cascades, I d ((p, operation) :: waiting) →
      Effect env p d operation cascades d' → I d' (waiting ++ cascades.map (place p)))
    {index : Nat} {operations : List Operation}
    (enter : ∀ d, ∀ operation ∈ operations, I d [] → I d [(p, operation)]) (start : I s.draft [])
    (run : applyAll env p index operations s = (.ok u, t)) : I t.draft [] := by
  induction operations generalizing index s with
  | nil =>
    obtain ⟨-, rfl⟩ := pure_eq_ok_iff.mp run
    exact start
  | cons operation later ih =>
    obtain ⟨_, s₁, applied, rest⟩ := bind_eq_ok_iff.mp run
    have first := enter _ operation List.mem_cons_self start
    exact ih (fun d other member => enter d other (List.mem_cons_of_mem _ member))
      (drain_keeps step first (mapError_eq_ok_iff.mp applied)) rest

/-- The operations of a batch with all their cascades are made of writes. -/
theorem applyAll_writes {index : Nat} {operations : List Operation}
    (run : applyAll env p index operations s = (.ok u, t)) : Writes s.draft t.draft :=
  applyAll_keeps (I := fun d _ => Writes s.draft d)
    (fun _ _ _ _ _ _ before effect => before.trans (.of_effect effect))
    (fun _ _ _ before => before) (Writes.refl _) run

end Queue

end ConceptLedger.Batch
