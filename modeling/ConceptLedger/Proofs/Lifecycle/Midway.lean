import ConceptLedger.Proofs.Lifecycle.Effect

/-!
The iteration setups midway through a batch. A creation leaves updates behind that will freeze the
siblings; until they have been executed, the setups are in order only up to those that they name.
Every operation keeps this, and once nothing waits the setups are in order without reservation.
-/

namespace ConceptLedger

open Lifecycle Forest IterationSetup

namespace Batch

variable {env : Setting} {p : Partition} {d d' : Draft}

/-- Midway through a batch, with the operations that wait: the setups are in order up to those that
will be frozen, and an iteration setup is deleted only when nothing else waits. -/
structure Midway (d : Draft) (queue : List (Partition × Operation)) : Prop where
  forests : d.Forested
  setups : ∀ p, Setups (d.find? p) (Freezes queue p)
  spared : queue.length ≤ 1 ∨ ∀ x ∈ queue, x.2.SparesSetups

/-- No cascade deletes an iteration setup. -/
theorem Effect.spares {operation : Operation} {cascades : List Cascade}
    (standard : env.registry = Registry.standard) (effect : Effect env p d operation cascades d') :
    ∀ x ∈ cascades, x.operation.SparesSetups := by
  cases effect with
  | create effect =>
    cases effect with
    | skipped request _ => exact request.hooked.spares standard
    | stored request _ _ _ _ hooked =>
      exact List.forall_mem_append.mpr ⟨request.hooked.spares standard, hooked.spares standard⟩
  | update effect =>
    cases effect with
    | skipped request _ => exact request.hooked.spares standard
    | unchanged request _ _ => exact request.hooked.spares standard
    | stored request _ _ _ _ hooked =>
      exact List.forall_mem_append.mpr ⟨request.hooked.spares standard, hooked.spares standard⟩
  | delete effect =>
    cases effect with
    | skipped request _ => exact request.hooked.spares standard
    | kept request _ _ hooked | marked request _ _ _ _ hooked | removed request _ _ _ _ _ hooked =>
      exact List.forall_mem_append.mpr ⟨request.hooked.spares standard, hooked.spares standard⟩

/-- What waits behind an operation, or is done by it. -/
theorem Freezes.cons {q : Partition} {id : ConceptId} {operation : Operation}
    {waiting : List (Partition × Operation)} (freezes : Freezes ((p, operation) :: waiting) q id) :
    Freezes waiting q id ∨ ∃ c, operation = .update c ∧ c.id = id ∧ isFrozen c = true := by
  obtain ⟨c, member, frozen⟩ := freezes
  rcases List.mem_cons.mp member with same | later
  · exact .inr ⟨c, (congrArg Prod.snd same).symm, frozen⟩
  · exact .inl ⟨c, later, frozen⟩

theorem Midway.alone {x : Partition × Operation} {waiting : List (Partition × Operation)}
    (midway : Midway d (x :: waiting)) : waiting = [] ∨ ∀ y ∈ x :: waiting, y.2.SparesSetups :=
  midway.spared.imp (fun short => List.length_eq_zero_iff.mp (by simpa using short)) id

/-- An iteration setup is deleted while nothing waits to be frozen. -/
theorem Midway.unhurried {id : ConceptId} {t : ConceptType} {waiting : List (Partition × Operation)}
    (midway : Midway d ((p, .delete id t) :: waiting)) (kind : t = .iterationSetup) {x : ConceptId} :
    ¬ Freezes ((p, .delete id t) :: waiting) p x := by
  intro freezes
  rcases midway.alone with rfl | spares
  · rcases freezes.cons with ⟨c, member, -⟩ | ⟨c, update, -⟩
    · cases member
    · cases update
  · exact spares (p, .delete id t) List.mem_cons_self kind

/-- Every operation leads from midway to midway, with its cascades behind what waited before. -/
theorem Effect.midway {operation : Operation} {waiting : List (Partition × Operation)}
    {cascades : List Cascade} (standard : env.registry = Registry.standard)
    (midway : Midway d ((p, operation) :: waiting)) (effect : Effect env p d operation cascades d') :
    Midway d' (waiting ++ cascades.map (place p)) := by
  refine ⟨effect.forested standard midway.forests, fun q => ?_, ?_⟩
  · have forest := midway.forests p
    have setups := midway.setups p
    by_cases here : q = p
    · subst here
      cases effect with
      | create effect =>
        refine (effect.setups standard forest setups).mono fun id waits => Freezes.append.mpr ?_
        rcases waits with waits | caused
        · exact .inl (waits.cons.resolve_right fun ⟨_, same, _⟩ => nomatch same)
        · exact .inr caused
      | update effect =>
        refine (effect.setups standard forest setups).mono fun id waits => Freezes.append.mpr ?_
        obtain ⟨waits, undone⟩ := waits
        refine .inl (waits.cons.resolve_right fun ⟨_, same, done⟩ => ?_)
        cases same
        exact undone done
      | delete effect =>
        refine (effect.setups standard forest setups fun kind => midway.unhurried kind).mono
          fun id waits => Freezes.append.mpr ?_
        exact .inl (waits.cons.resolve_right fun ⟨_, same, _⟩ => nomatch same)
    · rw [effect.elsewhere here]
      refine (midway.setups q).mono fun id waits => Freezes.append.mpr (.inl ?_)
      obtain ⟨c, member, frozen⟩ := waits
      rcases List.mem_cons.mp member with same | later
      · exact absurd (congrArg Prod.fst same) here
      · exact ⟨c, later, frozen⟩
  · right
    have cascaded := effect.spares standard
    intro x member
    rcases List.mem_append.mp member with before | caused
    · rcases midway.alone with rfl | spares
      · cases before
      · exact spares x (List.mem_cons_of_mem _ before)
    · obtain ⟨y, inside, rfl⟩ := List.mem_map.mp caused
      exact cascaded y inside

/-- Any operation may be the next when nothing waits. -/
theorem Midway.enter {operation : Operation} (midway : Midway d []) : Midway d [(p, operation)] where
  forests := midway.forests
  setups q := (midway.setups q).mono fun _ waits => nomatch waits
  spared := .inl (Nat.le_refl 1)

/-- The drafts that the operations of a batch pass through, each with those that still wait in it:
when none waits any operation may come, and the cascades of the first one queue up. -/
inductive Underway (env : Setting) (start : Draft) : Draft → List (Partition × Operation) → Prop
  | start : Underway env start start []
  | enter {d : Draft} {p : Partition} {operation : Operation} (underway : Underway env start d []) :
      Underway env start d [(p, operation)]
  | next {d d' : Draft} {p : Partition} {operation : Operation} {cascades : List Cascade}
      {waiting : List (Partition × Operation)}
      (underway : Underway env start d ((p, operation) :: waiting))
      (effect : Effect env p d operation cascades d') :
      Underway env start d' (waiting ++ cascades.map (place p))

/-- Applying the operations of a batch passes through such drafts and ends in one. -/
theorem applyAll_underway {s t : State Memory.View} {u : Unit} {index : Nat}
    {operations : List Operation} (run : applyAll env p index operations s = (.ok u, t)) :
    Underway env s.draft t.draft [] :=
  applyAll_keeps (fun _ _ _ _ _ _ underway effect => underway.next effect)
    (fun _ _ _ underway => underway.enter) .start run

theorem Underway.midway {queue : List (Partition × Operation)}
    (standard : env.registry = Registry.standard) (start : Midway d [])
    (underway : Underway env d d' queue) : Midway d' queue := by
  induction underway with
  | start => exact start
  | enter _ ih => exact ih.enter
  | next _ effect ih => exact effect.midway standard ih

/-- A setup that its container selects is not frozen, whatever waits. -/
theorem Midway.not_current {queue : List (Partition × Operation)} {former : Concept}
    (midway : Midway d queue) (stored : d.find? p former.id = some former)
    (kind : former.conceptType = .iterationSetup) (cold : isFrozen former = true) :
    isCurrent former.id (former.container.bind (d.find? p)) = false := by
  obtain ⟨y, named, member⟩ := member_of_kind (midway.forests p) stored kind
  obtain ⟨model, there, -⟩ := member.model (midway.forests p)
  rw [named, Option.bind_some, there]
  cases current : isCurrent former.id (some model) with
  | false => rfl
  | true =>
    have chosen : model.ref? Property.activeIterationSetup = some former.id := by
      simpa [isCurrent] using current
    have thawed := (midway.setups p).selected model y former there member chosen
    cases thawed.symm.trans cold

end Batch

end ConceptLedger
