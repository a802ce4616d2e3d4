import ConceptLedger.Proofs.Tables.Codec
import ConceptLedger.Proofs.Tables.Stores

/-!
A store in memory and tables with the same contents are the same store. Whatever is done to both at
the same times, calls inside one transaction, batches or reads, comes to the same, and the contents
stay the same.
-/

namespace ConceptLedger

open Step

/-- What is done to a store in one transaction: calls, whose effect is kept or taken back in the
end, calls on a snapshot, a batch, or a read. -/
inductive Deed where
  | transact (calls : List StoreCall) (keep : Bool)
  | snapshot (calls : List StoreCall)
  | submit (policy : Policy) (request : BatchRequest) (ids : IdSupply)
  | read (policy : Policy) (actor : Actor) (p : Partition) (query : Query)

/-- What comes of a deed besides the store. -/
inductive Deed.Outcome where
  | answers (given : Except Failure (List (Except Failure StoreAnswer)))
  | submission (s : Submission)
  | reading (r : Reading QueryAnswer)

namespace Deed

/-- Calls as the body of a transaction, which fails in the end if it is to be taken back. -/
def body {σ : Type} [ConceptStore σ] (calls : List StoreCall) (keep : Bool) :
    Step σ (List (Except Failure StoreAnswer)) := fun v =>
  match StoreCall.runEach calls v with
  | (answers, v) => (if keep then .ok answers else .error (.during .internal "calls" "aborted"), v)

variable {δ σ : Type} [ConceptStore σ] [Transactional δ σ]

/-- Does a deed at a reading of the clock. -/
def run (deed : Deed) (now : Instant) (db : δ) : Outcome × δ :=
  match deed with
  | transact calls keep =>
    (.answers ((Transactional.openWrite now db).1.map fun v => (StoreCall.runEach calls v).1),
      (Transactional.transact now (body calls keep) db).2)
  | snapshot calls =>
    (.answers ((Transactional.openRead now db).1.map fun v => (StoreCall.runEach calls v).1),
      (Transactional.snapshot now (body calls true) db).2)
  | submit policy request ids =>
    let (s, db) := policy.submit request now ids db
    (.submission s, db)
  | read policy actor p query =>
    let (r, db) := policy.answer actor p query now db
    (.reading r, db)

/-- Does deeds one after the other, each at its reading of the clock. -/
def runAll : List (Deed × Instant) → δ → List Outcome × δ
  | [], db => ([], db)
  | (deed, now) :: rest, db =>
    let (outcome, db) := deed.run now db
    let (outcomes, db) := runAll rest db
    (outcome :: outcomes, db)

/-- Of a transaction that is taken back only its opening is left. -/
theorem run_takenBack (calls : List StoreCall) (now : Instant) (db : δ) :
    ((transact calls false).run now db).2 = (Transactional.openWrite now db).2 := by
  show (Transactional.transact now (body calls false) db).2 = _
  unfold Transactional.transact
  cases Transactional.openWrite now db with
  | mk result opened =>
    cases result with
    | error e => rfl
    | ok view => rfl

/-- Whether a deed opens a transaction for writing. -/
def writing : Deed → Bool
  | transact _ _ | submit _ _ _ => true
  | snapshot _ | read _ _ _ _ => false

/-- Whether a deed is a batch or a read. -/
def Ruled : Deed → Prop
  | transact _ _ | snapshot _ => False
  | submit _ _ _ | read _ _ _ _ => True

/-- A deed that tables can serve as a store in memory does. Batches bring legible concepts, their
hooks keep to such, and every counter has room for one more revision in the signed range. -/
def Fitting (m : Memory.Database) (now : Instant) : Deed → Prop
  | transact calls _ => StoreCall.AllFitting calls (Tables.viewOf m true now)
  | snapshot calls => StoreCall.AllFitting calls (Tables.viewOf m false now)
  | submit policy request _ => Hook.Steady Instant.Legible (fun _ => True) policy.registry.invoke ∧
    (∀ operation ∈ request.operations, operation.Timely Instant.Legible) ∧
    ∀ p, (m.contents.counter p).toNat + 1 < Word.half
  | read _ _ _ query => query.Plain

end Deed

namespace Tables

/-- The same outcome. Failures of single calls, and of batches, need only be of the same kind. -/
inductive SameOutcome : Deed.Outcome → Deed.Outcome → Prop
  | answers {given given' : List (Except Failure StoreAnswer)}
    (pairwise : List.Forall₂ StoreCall.SameAnswer given given') :
    SameOutcome (.answers (.ok given)) (.answers (.ok given'))
  | submission {s s' : Submission} (alike : SameSubmission s s') :
    SameOutcome (.submission s) (.submission s')
  | reading (r : Reading QueryAnswer) : SameOutcome (.reading r) (.reading r)

/-- A deed that is done to two stores, each of which reads its own clock. -/
structure Turn where
  deed : Deed
  inMemory : Instant
  onTables : Instant

/-- What a turn needs of the stores: transactions at the same time, and a deed that fits. -/
structure Turn.Suits (turn : Turn) (m : Memory.Database) (t : Database) : Prop where
  times : SameTime turn.deed.writing turn.inMemory turn.onTables m t
  fitting : turn.deed.Fitting m turn.inMemory

/-- Whether each of several turns suits the stores when it comes. -/
def Suited : List Turn → Memory.Database → Database → Prop
  | [], _, _ => True
  | turn :: rest, m, t => turn.Suits m t ∧
    Suited rest (turn.deed.run turn.inMemory m).2 (turn.deed.run turn.onTables t).2

variable {m : Memory.Database} {t : Database}

/-- Calls inside one transaction answer the same on both stores. What they did is kept on both or on
neither. -/
theorem Mirrored.transact_same (mirrored : Mirrored m t) {now now' : Instant}
    (times : SameTime true now now' m t) {calls : List StoreCall} (keep : Bool)
    (fitting : StoreCall.AllFitting calls (viewOf m true now)) :
    SameOutcome ((Deed.transact calls keep).run now m).1 ((Deed.transact calls keep).run now' t).1 ∧
      Mirrored ((Deed.transact calls keep).run now m).2 ((Deed.transact calls keep).run now' t).2 := by
  obtain ⟨left, w, right, twins⟩ := mirrored.openedToWrite times
  obtain ⟨answers, after⟩ := StoreCall.runEach_matched twins fitting
  simp only [Deed.run, Transactional.transact, left, right, Deed.body, Except.map]
  refine ⟨.answers answers, ?_⟩
  cases keep with
  | true => exact mirrored.commit after _
  | false => exact mirrored.later _

theorem Mirrored.snapshot_same (mirrored : Mirrored m t) {now now' : Instant}
    (times : SameTime false now now' m t) {calls : List StoreCall}
    (fitting : StoreCall.AllFitting calls (viewOf m false now)) :
    SameOutcome ((Deed.snapshot calls).run now m).1 ((Deed.snapshot calls).run now' t).1 ∧
      Mirrored ((Deed.snapshot calls).run now m).2 ((Deed.snapshot calls).run now' t).2 := by
  obtain ⟨left, w, right, twins⟩ := mirrored.openedToRead times
  obtain ⟨answers, -⟩ := StoreCall.runEach_matched twins fitting
  simp only [Deed.run, Transactional.snapshot, left, right, Except.map]
  exact ⟨.answers answers, mirrored.later _⟩

/-- One turn comes to the same on both stores and keeps them in step. -/
theorem Mirrored.turn_same (mirrored : Mirrored m t) {turn : Turn} (suits : turn.Suits m t) :
    SameOutcome (turn.deed.run turn.inMemory m).1 (turn.deed.run turn.onTables t).1 ∧
      Mirrored (turn.deed.run turn.inMemory m).2 (turn.deed.run turn.onTables t).2 := by
  obtain ⟨deed, now, now'⟩ := turn
  obtain ⟨times, fitting⟩ := suits
  cases deed with
  | transact calls keep => exact mirrored.transact_same times keep fitting
  | snapshot calls => exact mirrored.snapshot_same times fitting
  | submit policy request ids =>
    obtain ⟨steady, legible, room⟩ := fitting
    obtain ⟨same, after⟩ := mirrored.submit_same times steady legible room
    exact ⟨.submission same, after⟩
  | read policy actor p query =>
    obtain ⟨same, after⟩ := mirrored.answer_same times policy actor p fitting
    simp only [Deed.run, same]
    exact ⟨.reading _, after⟩

/-- On contents that are in order, a batch or a read has one outcome on both stores. -/
theorem Mirrored.turn_eq (mirrored : Mirrored m t) {turn : Turn} (suits : turn.Suits m t)
    (ruled : turn.deed.Ruled) (sound : m.contents.Sound) :
    (turn.deed.run turn.inMemory m).1 = (turn.deed.run turn.onTables t).1 := by
  obtain ⟨deed, now, now'⟩ := turn
  obtain ⟨times, fitting⟩ := suits
  cases deed with
  | transact calls keep => exact ruled.elim
  | snapshot calls => exact ruled.elim
  | submit policy request ids =>
    obtain ⟨steady, legible, room⟩ := fitting
    exact congrArg Deed.Outcome.submission
      (mirrored.submit_eq times steady legible room sound.recorded)
  | read policy actor p query =>
    exact congrArg Deed.Outcome.reading (mirrored.answer_same times policy actor p fitting).1

/-- Batches and reads leave contents in order that are in order. -/
theorem sound_run (deed : Deed) (now : Instant) (ruled : deed.Ruled) (sound : m.contents.Sound) :
    (deed.run now m).2.contents.Sound := by
  cases deed with
  | transact calls keep => exact ruled.elim
  | snapshot calls => exact ruled.elim
  | submit policy request ids =>
    rcases Memory.submit_contents policy request now ids m with ⟨outcome, -, committed⟩ | ⟨-, same⟩
    · exact committed.sound sound
    · show (policy.submit request now ids m).2.contents.Sound
      rw [same]
      exact sound
  | read policy actor p query =>
    obtain ⟨time, same⟩ := Memory.answer_eq policy actor p query now m
    show (policy.answer actor p query now m).2.contents.Sound
    rw [same]
    exact sound

theorem run_same {turns : List Turn} (mirrored : Mirrored m t) (suited : Suited turns m t) :
    List.Forall₂ SameOutcome (Deed.runAll (turns.map fun turn => (turn.deed, turn.inMemory)) m).1
        (Deed.runAll (turns.map fun turn => (turn.deed, turn.onTables)) t).1 ∧
      Mirrored (Deed.runAll (turns.map fun turn => (turn.deed, turn.inMemory)) m).2
        (Deed.runAll (turns.map fun turn => (turn.deed, turn.onTables)) t).2 := by
  induction turns generalizing m t with
  | nil => exact ⟨.nil, mirrored⟩
  | cons turn rest ih =>
    obtain ⟨same, after⟩ := mirrored.turn_same suited.1
    obtain ⟨later, ends⟩ := ih after suited.2
    exact ⟨.cons same later, ends⟩

theorem run_eq {turns : List Turn} (mirrored : Mirrored m t) (suited : Suited turns m t)
    (sound : m.contents.Sound) (ruled : ∀ turn ∈ turns, turn.deed.Ruled) :
    (Deed.runAll (turns.map fun turn => (turn.deed, turn.inMemory)) m).1 =
      (Deed.runAll (turns.map fun turn => (turn.deed, turn.onTables)) t).1 := by
  induction turns generalizing m t with
  | nil => rfl
  | cons turn rest ih =>
    have here := ruled turn List.mem_cons_self
    have same := mirrored.turn_eq suited.1 here sound
    have later := ih (mirrored.turn_same suited.1).2 suited.2 (sound_run turn.deed _ here sound)
      fun turn' member => ruled turn' (List.mem_cons_of_mem _ member)
    exact congrArg₂ List.cons same later

/-- Two stores with the same contents stay so, whatever is done to both at the same times, and every
deed has the same outcome on both. A transaction that is taken back leaves no trace on either. On
contents that are in order, batches and reads also fail with the same failures. -/
theorem stores_agree (turns : List Turn) (mirrored : Mirrored m t) (suited : Suited turns m t) :
    List.Forall₂ SameOutcome (Deed.runAll (turns.map fun turn => (turn.deed, turn.inMemory)) m).1
        (Deed.runAll (turns.map fun turn => (turn.deed, turn.onTables)) t).1 ∧
      Mirrored (Deed.runAll (turns.map fun turn => (turn.deed, turn.inMemory)) m).2
        (Deed.runAll (turns.map fun turn => (turn.deed, turn.onTables)) t).2 ∧
      (∀ calls now now', ((Deed.transact calls false).run now m).2.contents = m.contents ∧
        ((Deed.transact calls false).run now' t).2.contents = t.contents) ∧
      (m.contents.Sound → (∀ turn ∈ turns, turn.deed.Ruled) →
        (Deed.runAll (turns.map fun turn => (turn.deed, turn.inMemory)) m).1 =
          (Deed.runAll (turns.map fun turn => (turn.deed, turn.onTables)) t).1) := by
  obtain ⟨same, after⟩ := run_same mirrored suited
  refine ⟨same, after, fun calls now now' => ⟨?_, ?_⟩, run_eq mirrored suited⟩
  · rw [Deed.run_takenBack]
    obtain ⟨time, kept⟩ := (Memory.openView_eq m true now).1
    have kept : (Transactional.openWrite now m).2 = { m with lastTime := time } := kept
    rw [kept]
  · rw [Deed.run_takenBack]
    rfl

section Founding

/-- A few seconds after the first of January 1970. -/
def second (n : Nat) : Instant := ⟨n, 0, (default : Instant).nanos_lt⟩

/-- The record of a site directory that is gone. -/
def goneRecord : RevisionRecord := ⟨.siteDirectory, .ofNat 3, .siteDirectory, 1, none, second 1⟩

/-- A transaction that logs the record of a site directory. -/
def loggingTurn : Turn :=
  ⟨.transact [.raiseRevision .siteDirectory, .append [goneRecord],
    .history .siteDirectory (.ofNat 3)] true, second 1, second 1⟩

/-- The batch that founds a site directory, and a read of it. -/
def foundingTurns : List Turn :=
  [⟨.submit {} Memory.foundingRequest ⟨.ofNat, 3⟩, second 2, second 2⟩,
    ⟨.read {} Memory.foundingRequest.actor .siteDirectory (.asOf [.ofNat 2] (.instant (second 3))),
      second 3, second 3⟩]

theorem second_whole : (second 1).Whole ∧ (second 2).Whole ∧ (second 3).Whole := by
  unfold Instant.Whole
  decide

theorem second_legible : (second 1).Legible ∧ (second 2).Legible ∧ (second 3).Legible := by
  unfold Instant.Legible
  decide

theorem loggingTurn_suits : loggingTurn.Suits {} { codec := .lossless } := by
  refine ⟨.of_free second_whole.1 second_legible.1 rfl rfl, ?_, ?_, trivial, trivial⟩
  · show (0 : UInt64).toNat + 1 < Word.half
    decide
  · intro r member
    cases List.mem_singleton.mp member
    exact ⟨by decide, fun _ present => (nomatch present), second_whole.1⟩

theorem foundingTurns_suited : Suited foundingTurns {} { codec := .lossless } := by
  refine ⟨⟨.of_free second_whole.2.1 second_legible.2.1 rfl rfl, ?_⟩,
    ⟨.of_free second_whole.2.2 second_legible.2.2 rfl rfl, ?_⟩, trivial⟩
  · refine ⟨Registry.standard_steady (fun _ _ => trivial) trivial, fun operation member => ?_, fun p => ?_⟩
    · cases List.mem_singleton.mp member
      exact fun _ _ found => nomatch found
    · show (0 : UInt64).toNat + 1 < Word.half
      decide
  · show (second 3).inRange = true ∧ (second 3).nanos < 1000000000
    decide

/-- Two empty stores agree about a logged record, and about a founding and what is read of it. -/
theorem stores_agree_founding :
    SameOutcome (loggingTurn.deed.run (second 1) ({} : Memory.Database)).1
        (loggingTurn.deed.run (second 1) ({ codec := .lossless } : Database)).1 ∧
      Mirrored (loggingTurn.deed.run (second 1) ({} : Memory.Database)).2
        (loggingTurn.deed.run (second 1) ({ codec := .lossless } : Database)).2 ∧
      (Deed.runAll (foundingTurns.map fun turn => (turn.deed, turn.inMemory))
          ({} : Memory.Database)).1 =
        (Deed.runAll (foundingTurns.map fun turn => (turn.deed, turn.onTables))
          ({ codec := .lossless } : Database)).1 := by
  have empty := mirrored_empty TextCodec.lossless_exact
  obtain ⟨same, after, -, -⟩ := stores_agree [loggingTurn] empty ⟨loggingTurn_suits, trivial⟩
  obtain ⟨-, -, -, equal⟩ := stores_agree foundingTurns empty foundingTurns_suited
  refine ⟨?_, after, equal Memory.Contents.sound_empty fun turn member => ?_⟩
  · cases same with
    | cons first _ => exact first
  · rcases List.mem_cons.mp member with rfl | member
    · trivial
    · cases List.mem_singleton.mp member
      trivial

end Founding

section Resolution

/-- A record with a time between two milliseconds. -/
def fineRecord : RevisionRecord :=
  ⟨.siteDirectory, .ofNat 2, .siteDirectory, 1, none, ⟨0, 500000, by decide⟩⟩

/-- Logs the record and asks for it. -/
def fineCalls : List StoreCall :=
  [.append [fineRecord], .history .siteDirectory (.ofNat 2)]

/-- Two empty stores with the same time do not agree about a record that was logged between two
milliseconds: tables keep no more than whole ones. -/
theorem fineRecord_differs :
    Mirrored {} { codec := .lossless } ∧
      SameTime true (second 1) (second 1) {} { codec := .lossless } ∧
      ¬ SameOutcome ((Deed.transact fineCalls true).run (second 1) ({} : Memory.Database)).1
        ((Deed.transact fineCalls true).run (second 1) ({ codec := .lossless } : Database)).1 := by
  have empty := mirrored_empty TextCodec.lossless_exact
  have times : SameTime true (second 1) (second 1) {} { codec := .lossless } :=
    .of_free second_whole.1 second_legible.1 rfl rfl
  refine ⟨empty, times, fun same => ?_⟩
  obtain ⟨-, w, opened, -⟩ := empty.openedToWrite times
  have left : ((Deed.transact fineCalls true).run (second 1) ({} : Memory.Database)).1 =
      .answers (.ok [.ok .done, .ok (.records [fineRecord])]) := rfl
  have right : ((Deed.transact fineCalls true).run (second 1)
      ({ codec := .lossless } : Database)).1 =
        .answers (.ok (StoreCall.runEach fineCalls w).1) := by
    simp only [Deed.run, opened, Except.map]
  rw [left, right] at same
  cases same with
  | answers pairwise =>
    obtain ⟨-, rest⟩ := List.forall₂_cons.mp pairwise
    obtain ⟨here, -⟩ := List.forall₂_cons.mp rest
    generalize ((StoreCall.append [fineRecord]).run w).2 = w' at here
    -- what tables answer is in whole milliseconds, and the time of the record is not
    have whole := history_whole (StoreCall.history_of_answer here) _ (List.mem_singleton.mpr rfl)
    unfold Instant.Whole at whole
    exact absurd whole (by decide)

end Resolution

end Tables

end ConceptLedger
