import ConceptLedger.Hook.Standard
import ConceptLedger.Proofs.Batch.Ending
import ConceptLedger.Proofs.Hook.Depth

/-!
The schedule of an operation with all that it causes, for any hooks and any store. The loop takes
the operations that wait in turn, and the cascades of each one join at the end. It is described here
without a bound on the number of turns; that every run of it ends is what the limit on cascades
achieves, even if the hooks cause new ones at each turn. What the limit does not bound is the hooks
themselves: a run has no end if one of them does not return.
-/

namespace ConceptLedger.Batch

open Step

variable {σ : Type}

/-- One operation of a run: where it is executed, from which state, and how it ends. -/
structure Turn (σ : Type) where
  partition : Partition
  operation : Operation
  start : State σ
  answer : Except Failure (List Cascade)
  finish : State σ

namespace Turn

/-- What is executed, and in which partition. -/
def asked (turn : Turn σ) : Partition × Operation := (turn.partition, turn.operation)

/-- The cascades that the operation answers. One that fails answers none. -/
def cascades (turn : Turn σ) : List Cascade := turn.answer.toOption.getD []

/-- The cascades with their partitions: the one that a cascade names, or else that of the turn. -/
def caused (turn : Turn σ) : List (Partition × Operation) :=
  turn.cascades.map (place turn.partition)

theorem length_caused {turn : Turn σ} {cascades : List Cascade}
    (answer : turn.answer = .ok cascades) : turn.caused.length = cascades.length := by
  simp [caused, Turn.cascades, answer, Except.toOption]

end Turn

variable [ConceptStore σ]

/-- The turn is an execution of its operation. -/
def Turn.Executed (env : Setting) (turn : Turn σ) : Prop :=
  execute env turn.partition turn.operation turn.start = (turn.answer, turn.finish)

theorem Turn.Executed.run {env : Setting} {turn : Turn σ} {answer : Except Failure (List Cascade)}
    (executed : turn.Executed env) (same : turn.answer = answer) :
    execute env turn.partition turn.operation turn.start = (answer, turn.finish) := by
  rw [← same]
  exact executed

/-- The turn has no end: a hook that it asks before the change or after it does not return, or some
call of the store does not. -/
def Turn.Hangs (env : Setting) (turn : Turn σ) : Prop :=
  Stalls σ ∨ ∃ earlier later occasion c, Around turn.operation earlier later ∧
    (occasion = earlier ∨ occasion = later) ∧
    Unanswered env turn.partition occasion c turn.finish

theorem Turn.Executed.hangs {env : Setting} {turn : Turn σ} {f : Failure}
    (executed : turn.Executed env) (answer : turn.answer = .error f) (endless : f.kind = .endless) :
    turn.Hangs env := by
  have asks {earlier later occasion : Occasion} (around : Around turn.operation earlier later)
      (which : occasion = earlier ∨ occasion = later) (security : SecurityContext) (c : Concept)
      (container : Option Concept) (t : State σ) : HangsOnly (Stalls σ) (fun t => ∃ earlier later occasion c,
        Around turn.operation earlier later ∧ (occasion = earlier ∨ occasion = later) ∧
        Unanswered env turn.partition occasion c t)
      (invoke env turn.partition security occasion c container) t :=
    (invoke_hangs security occasion c container).imp fun t ⟨_, unanswered⟩ =>
      ⟨earlier, later, occasion, c, around, which, unanswered⟩
  refine execute_hangs (fun c orderKey t created _ => ?_)
    (fun _ _ _ c security container t around _ which => asks around which security c container t)
    f turn.finish (executed.run answer) endless
  have around : Around turn.operation .beforeCreate .afterCreate := created ▸ .create
  exact create_hangs (fun security container => asks around (.inl rfl) security _ container t)
    fun _ _ _ _ stored container' u _ _ security =>
      asks around (.inr rfl) security stored container' u

/-- The failure of a run with too many cascades. -/
def overrun (env : Setting) : Failure := (Fault.cascadeLimitExceeded env.limit).failure

/-- A run of the loop, turn by turn, until nothing waits, an operation fails or the cascades exceed
the limit. `spawned` counts those before the run. -/
inductive Drains (env : Setting) : Nat → List (Partition × Operation) → State σ → List (Turn σ) →
    Except Failure Unit → State σ → Prop
  | idle {spawned : Nat} {s : State σ} : Drains env spawned [] s [] (.ok ()) s
  | failed {spawned : Nat} {waiting : List (Partition × Operation)} {turn : Turn σ} {f : Failure}
      (executed : turn.Executed env) (answer : turn.answer = .error f) :
      Drains env spawned (turn.asked :: waiting) turn.start [turn] (.error f) turn.finish
  | exceeded {spawned : Nat} {waiting : List (Partition × Operation)} {turn : Turn σ}
      {cascades : List Cascade} (executed : turn.Executed env) (answer : turn.answer = .ok cascades)
      (above : env.limit < spawned + cascades.length) :
      Drains env spawned (turn.asked :: waiting) turn.start [turn] (.error (overrun env)) turn.finish
  | next {spawned : Nat} {waiting : List (Partition × Operation)} {turn : Turn σ}
      {cascades : List Cascade} {turns : List (Turn σ)} {result : Except Failure Unit} {t : State σ}
      (executed : turn.Executed env) (answer : turn.answer = .ok cascades)
      (within : spawned + cascades.length ≤ env.limit)
      (rest : Drains env (spawned + cascades.length) (waiting ++ turn.caused) turn.finish turns
        result t) :
      Drains env spawned (turn.asked :: waiting) turn.start (turn :: turns) result t

namespace Drains

variable {env : Setting} {spawned : Nat} {queue : List (Partition × Operation)} {s t : State σ}
  {turns : List (Turn σ)} {result : Except Failure Unit}

theorem begun {first : Partition × Operation}
    (run : Drains env spawned (first :: queue) s turns result t) : turns ≠ [] := by
  cases run <;> exact List.cons_ne_nil _ _

theorem executed (run : Drains env spawned queue s turns result t) :
    ∀ turn ∈ turns, turn.Executed env := by
  induction run with
  | idle => exact List.forall_mem_nil _
  | failed executed _ => exact fun turn member => List.mem_singleton.mp member ▸ executed
  | exceeded executed _ _ => exact fun turn member => List.mem_singleton.mp member ▸ executed
  | next executed _ _ _ ih =>
    intro turn member
    rcases List.mem_cons.mp member with rfl | later
    · exact executed
    · exact ih turn later

/-- What is executed stands at the front of what waited, followed by all that was caused. -/
theorem inOrder (run : Drains env spawned queue s turns result t) :
    turns.map Turn.asked <+: queue ++ turns.flatMap Turn.caused := by
  induction run with
  | idle => exact List.nil_prefix
  | failed => exact List.prefix_append [_] _
  | exceeded => exact List.prefix_append [_] _
  | next _ _ _ _ ih =>
    rw [List.map_cons, List.flatMap_cons, List.cons_append, ← List.append_assoc]
    exact List.prefix_cons_inj _ |>.mpr ih

/-- Each turn uses up one operation that waits, and those that join are counted. -/
theorem bounded (run : Drains env spawned queue s turns result t) (room : spawned ≤ env.limit) :
    turns.length + spawned ≤ queue.length + env.limit := by
  induction run with
  | idle => simpa using room
  | failed => simp only [List.length_cons, List.length_nil]; omega
  | exceeded => simp only [List.length_cons, List.length_nil]; omega
  | next _ answer within _ ih =>
    have later := ih within
    simp only [List.length_append, Turn.length_caused answer, List.length_cons] at later ⊢
    omega

/-- A run that fails ends with the operation that failed, or with the one whose cascades exceed the
limit. All turns before it succeed. -/
theorem refused (run : Drains env spawned queue s turns result t) {f : Failure}
    (failure : result = .error f) :
    ∃ front turn, turns = front ++ [turn] ∧ (∀ earlier ∈ front, earlier.answer.isOk) ∧
      (turn.answer = .error f ∨ turn.answer.isOk ∧ f = overrun env ∧
        env.limit < spawned + (turns.flatMap Turn.caused).length) := by
  induction run with
  | idle => cases failure
  | @failed _ _ turn _ _ answer =>
    cases failure
    exact ⟨[], turn, rfl, List.forall_mem_nil _, .inl answer⟩
  | @exceeded _ _ turn _ _ answer above =>
    cases failure
    refine ⟨[], turn, rfl, List.forall_mem_nil _, .inr ⟨?_, rfl, ?_⟩⟩
    · rw [answer]
      rfl
    · simpa [Turn.length_caused answer] using above
  | @next _ _ turn _ turns _ _ _ answer _ _ ih =>
    obtain ⟨front, last, rfl, succeeded, cause⟩ := ih failure
    refine ⟨turn :: front, last, rfl, ?_, ?_⟩
    · intro earlier member
      rcases List.mem_cons.mp member with rfl | later
      · rw [answer]
        rfl
      · exact succeeded earlier later
    · refine cause.imp_right fun ⟨succeeds, limit, above⟩ => ⟨succeeds, limit, ?_⟩
      rw [List.flatMap_cons, List.length_append, Turn.length_caused answer]
      omega

/-- A run without end is in a turn without end. -/
theorem hangs (run : Drains env spawned queue s turns result t) {f : Failure}
    (failure : result = .error f) (endless : f.kind = .endless) :
    ∃ front turn, turns = front ++ [turn] ∧ turn.Hangs env := by
  obtain ⟨front, turn, rfl, -, failed | ⟨-, rfl, -⟩⟩ := run.refused failure
  · exact ⟨front, turn, rfl, (run.executed turn (by simp)).hangs failed endless⟩
  · exact absurd endless (Fault.ends _)

/-- In a run that succeeds every operation does. -/
theorem answered (run : Drains env spawned queue s turns result t) (success : result = .ok ()) :
    ∀ turn ∈ turns, turn.answer.isOk := by
  induction run with
  | idle => exact List.forall_mem_nil _
  | failed => cases success
  | exceeded => cases success
  | next _ answer _ _ ih =>
    intro turn member
    rcases List.mem_cons.mp member with rfl | later
    · rw [answer]
      rfl
    · exact ih success turn later

end Drains

end ConceptLedger.Batch
