import ConceptLedger.Proofs.Tables.Batches

/-!
A store in memory and tables that mirror it. Transactions that have the same time open views that go
together, so that calls, batches and reads answer the same on both, and what is committed keeps the
stores in step.
-/

namespace ConceptLedger

namespace Tables

open Step Batch

/-- A store in memory that takes what it is given, and tables with the same contents. -/
structure Mirrored (m : Memory.Database) (t : Database) : Prop where
  mirrors : Mirrors t.codec m.contents t.contents
  fits : Fits m.contents
  exact : t.codec.Exact
  available : m.unavailable = false
  accepts : m.rejectsLog = false

/-- The time in milliseconds at which a transaction begins. -/
def Database.startMillis (db : Database) (writing : Bool) (now : Instant) : Int64 :=
  if writing then db.nextMillis now else millisOf now

/-- Two readings of the clock, one for each store, at which transactions have the same time. -/
structure SameTime (writing : Bool) (now now' : Instant) (m : Memory.Database) (t : Database) :
    Prop where
  same : parseMillis (t.startMillis writing now') = .ok (m.nextTime now)
  legible : (m.nextTime now).Legible

/-- The view that a store in memory opens. -/
def viewOf (m : Memory.Database) (writing : Bool) (now : Instant) : Memory.View :=
  ⟨m.contents, m.nextTime now, writing, m.rejectsLog⟩

namespace Mirrored

variable {m : Memory.Database} {t : Database} (mirrored : Mirrored m t) {writing : Bool}
  {now now' : Instant}

include mirrored

theorem opened (times : SameTime writing now now' m t) :
    m.openView writing now = (.ok (viewOf m writing now), { m with lastTime := some (m.nextTime now) }) ∧
      ∃ w, t.viewAt writing (t.startMillis writing now') = .ok w ∧
        Twins t.codec (viewOf m writing now) w := by
  constructor
  · exact Memory.openView_of_available writing now mirrored.available
  · refine ⟨⟨t.contents, t.codec, m.nextTime now, writing⟩, ?_, ?_⟩
    · simp [Database.viewAt, times.same, Except.map]
    · exact
        { mirrors := mirrored.mirrors
          fits := mirrored.fits
          codec_eq := rfl
          exact := mirrored.exact
          time := rfl
          legible := times.legible
          whole := whole_of_parseMillis times.same
          writable := rfl
          accepts := mirrored.accepts }

theorem openedToWrite (times : SameTime true now now' m t) :
    Transactional.openWrite now m =
        (.ok (viewOf m true now), { m with lastTime := some (m.nextTime now) }) ∧
      ∃ w : View, Transactional.openWrite now' t = (.ok w, t) ∧
        Twins t.codec (viewOf m true now) w := by
  obtain ⟨left, w, right, twins⟩ := mirrored.opened times
  exact ⟨left, w, Prod.ext right rfl, twins⟩

theorem openedToRead (times : SameTime false now now' m t) :
    Transactional.openRead now m =
        (.ok (viewOf m false now), { m with lastTime := some (m.nextTime now) }) ∧
      ∃ w : View, Transactional.openRead now' t = (.ok w, t) ∧
        Twins t.codec (viewOf m false now) w := by
  obtain ⟨left, w, right, twins⟩ := mirrored.opened times
  exact ⟨left, w, Prod.ext right rfl, twins⟩

/-- What is committed on both stores keeps them in step, and so does the passing of time. -/
theorem commit {v : Memory.View} {w : View} (twins : Twins t.codec v w) (time : Option Instant) :
    Mirrored { m with contents := v.contents, lastTime := time } { t with contents := w.contents } where
  mirrors := twins.codec_eq ▸ twins.mirrors
  fits := twins.fits
  exact := mirrored.exact
  available := mirrored.available
  accepts := mirrored.accepts

theorem later (time : Option Instant) : Mirrored { m with lastTime := time } t :=
  { mirrored with }

end Mirrored

/-- Two empty stores. -/
theorem mirrored_empty {codec : TextCodec} (exact_ : codec.Exact) : Mirrored {} { codec } where
  mirrors := ⟨.empty, rfl, .empty⟩
  fits :=
    { keyed := fun _ _ found => nomatch found
      legible := fun _ _ _ found => nomatch found
      storable := fun _ member => nomatch member
      once := .nil }
  exact := exact_
  available := rfl
  accepts := rfl

/-- One reading of the clock will do for both stores when it is later than all that was before. -/
theorem SameTime.of_free {m : Memory.Database} {t : Database} {writing : Bool} {now : Instant}
    (whole : now.Whole) (legible : now.Legible) (free : m.nextTime now = now)
    (start : t.startMillis writing now = millisOf now) : SameTime writing now now m t := by
  refine ⟨?_, by rw [free]; exact legible⟩
  rw [start, free, parseMillis_millisOf whole]

section Submissions

variable {δ σ : Type} [ConceptStore σ] [Transactional δ σ] {policy : Policy} {now : Instant}
  {ids : IdSupply} {db db' : δ} {view : σ}

/-- What comes of a batch that ends in a state. -/
def ending (request : BatchRequest) (result : Except Failure BatchOutcome) (s : State σ) :
    Submission :=
  let result := result.mapError (·.forRequest request.context)
  { result
    journal := Event.batchStarted request.context.requestId request.partition
      request.operations.length request.actor.id :: s.journal ++
        [Policy.closing request.context result]
    notes := s.notes
    ids := s.ids }

theorem submit_of_opened (opened : Transactional.openWrite now db = (.ok view, db'))
    (request : BatchRequest) :
    policy.submit request now ids db =
      match Batch.run (policy.settingFor request.actor) request.partition request.operations
        { view, ids } with
      | (.ok outcome, s) => (ending request (.ok outcome) s, Transactional.commit db' s.view)
      | (.error f, s) => (ending request (.error f) s, db') := by
  unfold Policy.submit
  rw [opened]
  dsimp only
  cases Batch.run (policy.settingFor request.actor) request.partition request.operations
    { view, ids } with
  | mk result s =>
    cases result with
    | ok outcome => rfl
    | error f => rfl

end Submissions

/-- The same submission, or batches that were rejected in the same kind of way and left the same
behind. -/
inductive SameSubmission : Submission → Submission → Prop
  | equal (s : Submission) : SameSubmission s s
  | rejected {s s' : Submission} {e f : Failure} (left : s.result = .error e)
    (right : s'.result = .error f) (failures : SameKind e f) (notes : s.notes = s'.notes)
    (ids : s.ids = s'.ids) : SameSubmission s s'

namespace Mirrored

variable {m : Memory.Database} {t : Database} (mirrored : Mirrored m t) {now now' : Instant}
  (times : SameTime true now now' m t) {policy : Policy} {request : BatchRequest} {ids : IdSupply}
  (steady : Hook.Steady Instant.Legible (fun _ => True) policy.registry.invoke)
  (legible : ∀ operation ∈ request.operations, operation.Timely Instant.Legible)
  (room : ∀ p, (m.contents.counter p).toNat + 1 < Word.half)

include mirrored times

theorem submit_matched {E : Failure → Failure → Prop} (P : Submission → Submission → Prop)
    (outcomes : ∀ w, Twins t.codec (viewOf m true now) w →
      Matched (Paired (Running true t.codec) Eq) E (fun _ => True)
      (Batch.run (policy.settingFor request.actor) request.partition request.operations
        { view := viewOf m true now, ids })
      (Batch.run (policy.settingFor request.actor) request.partition request.operations
        { view := w, ids }))
    (same : ∀ s, P s s)
    (rejected : ∀ e f (s : State Memory.View), E e f →
      P (ending request (.error e) s) (ending request (.error f) s)) :
    P (policy.submit request now ids m).1 (policy.submit request now' ids t).1 ∧
      Mirrored (policy.submit request now ids m).2 (policy.submit request now' ids t).2 := by
  obtain ⟨left, w, right, twins⟩ := mirrored.openedToWrite times
  have outcomes := outcomes w twins
  rw [submit_of_opened left, submit_of_opened right]
  generalize Batch.run _ _ _ { view := viewOf m true now, ids } = outcome at outcomes ⊢
  generalize Batch.run _ _ _ { view := w, ids } = outcome' at outcomes ⊢
  cases outcomes with
  | ok _ states =>
    obtain ⟨w', _, rfl, running, rfl⟩ := states
    exact ⟨same _, mirrored.commit running.twins _⟩
  | error failures states =>
    obtain ⟨w', _, rfl, -, rfl⟩ := states
    exact ⟨rejected _ _ _ failures, mirrored.later _⟩

include steady legible room

/-- A batch comes to the same on both stores and keeps them in step. -/
theorem submit_same : SameSubmission (policy.submit request now ids m).1
      (policy.submit request now' ids t).1 ∧
    Mirrored (policy.submit request now ids m).2 (policy.submit request now' ids t).2 := by
  refine mirrored.submit_matched (E := SameKind) times SameSubmission (fun w twins => ?_) .equal ?_
  · exact run_matched ids (Running.roomy twins rfl room) steady _ legible
  · intro e f s failures
    exact .rejected rfl rfl failures rfl rfl

/-- Where nothing logged is above its counter, the submissions are equal. -/
theorem submit_eq
    (recorded : ∀ r ∈ m.contents.log, r.revision ≤ m.contents.counter r.partition) :
    (policy.submit request now ids m).1 = (policy.submit request now' ids t).1 := by
  refine (mirrored.submit_matched (E := Eq) times Eq (fun w twins => ?_) (fun _ => rfl) ?_).1
  · exact run_matched_of_recorded ids (Running.roomy twins rfl room) steady _ legible recorded
  · rintro e _ s rfl
    rfl

omit room in
/-- Whatever room the counters have, a batch leaves the tables as they are, or it keeps the stores in
step and the counters in the signed range. -/
theorem submit_followed (ranged : ∀ p, (m.contents.counter p).toNat < Word.half) :
    (policy.submit request now' ids t).2 = t ∨
      Mirrored (policy.submit request now ids m).2 (policy.submit request now' ids t).2 ∧
        ∀ p, ((policy.submit request now ids m).2.contents.counter p).toNat < Word.half := by
  obtain ⟨left, w, right, twins⟩ := mirrored.openedToWrite times
  have start : Running false t.codec SortedMap.empty (viewOf m true now) w :=
    .start twins rfl ranged nofun
  have steady : Hook.Steady Instant.Legible (fun _ => True)
    (policy.settingFor request.actor).registry.invoke := steady
  have outcomes := run_matched ids start steady request.partition legible
  rw [submit_of_opened left, submit_of_opened right]
  generalize Batch.run _ _ _ { view := viewOf m true now, ids } = outcome at outcomes ⊢
  generalize Batch.run _ _ _ { view := w, ids } = outcome' at outcomes ⊢
  cases outcomes with
  | ok _ states =>
    obtain ⟨w', _, rfl, running, rfl⟩ := states
    exact .inr ⟨mirrored.commit running.twins _, running.ranged⟩
  | error => exact .inl rfl
  | alone => exact .inl rfl

end Mirrored

end Tables

/-- Whether a query asks only for bounds that tables can compare with. -/
def Query.Plain : Query → Prop
  | .asOf _ bound => bound.Plain
  | _ => True

namespace Tables.Mirrored

open Step

variable {m : Memory.Database} {t : Tables.Database} (mirrored : Mirrored m t) {now now' : Instant}
  (times : SameTime false now now' m t) (policy : Policy) (actor : Actor) (p : Partition)

include mirrored times

/-- A read that comes to the same for readers that see the same comes to the same on both stores. -/
theorem reading_same {α : Type} (op : String) (options : ReadOptions)
    (body : ∀ (σ : Type) [ConceptStore σ], Reader σ → ReadStep α)
    (same : ∀ (r : Reader Memory.View) (w : View), ShowsSame AsOf.Plain r.view w →
      body View (r.onto w) = body Memory.View r) :
    (policy.reading op actor p options now (body Memory.View) m).1 =
        (policy.reading op actor p options now' (body View) t).1 ∧
      Mirrored (policy.reading op actor p options now (body Memory.View) m).2
        (policy.reading op actor p options now' (body View) t).2 := by
  obtain ⟨left, w, right, twins⟩ := mirrored.openedToRead times
  have run := same ⟨viewOf m false now, policy.gate, actor, p, options⟩ w twins.showsSame
  unfold Policy.reading
  rw [left, right]
  simp only [Reader.onto] at run ⊢
  rw [run]
  exact ⟨rfl, mirrored.later _⟩

/-- A query is answered the same on both stores and keeps them in step. -/
theorem answer_same {query : Query} (plain : query.Plain) :
    (policy.answer actor p query now m).1 = (policy.answer actor p query now' t).1 ∧
      Mirrored (policy.answer actor p query now m).2 (policy.answer actor p query now' t).2 := by
  cases query with
  | shallow ids options =>
    obtain ⟨answers, after⟩ := mirrored.reading_same times policy actor p "get_shallow" options
      (fun _ _ r => r.shallow ids none) fun r _ same => r.shallow_onto same ids none
    exact ⟨congrArg (Reading.map QueryAnswer.concepts) answers, after⟩
  | deep ids options =>
    obtain ⟨answers, after⟩ := mirrored.reading_same times policy actor p "get_deep" options
      (fun _ _ r => r.deep ids none) fun r _ same => r.deep_onto same ids none
    exact ⟨congrArg (Reading.map QueryAnswer.concepts) answers, after⟩
  | asOf ids bound =>
    obtain ⟨answers, after⟩ := mirrored.reading_same times policy actor p "resolve_as_of" {}
      (fun _ _ r => Step.lift (r.asOf ids bound))
      fun r _ same => congrArg Step.lift (r.asOf_onto same ids plain)
    exact ⟨congrArg (Reading.map QueryAnswer.concepts) answers, after⟩
  | history id =>
    obtain ⟨answers, after⟩ := mirrored.reading_same times policy actor p "history" {}
      (fun _ _ r => Step.lift (r.history id))
      fun r _ same => congrArg Step.lift (r.history_onto same id)
    exact ⟨congrArg (Reading.map QueryAnswer.records) answers, after⟩

end Tables.Mirrored

end ConceptLedger
