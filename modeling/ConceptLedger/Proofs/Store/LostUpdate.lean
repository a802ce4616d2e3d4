import ConceptLedger.Proofs.Store.Answer
import ConceptLedger.Proofs.Store.Submission

/-!
No update is lost. A batch that updates a concept from a state that was read before succeeds only
if that state has been the stored one all the time since, for a revision is never given to two
states of a concept and no older state comes back.
-/

namespace ConceptLedger

namespace Batch

open Step

/-- An update goes through only from a state that is not older than the stored one, unless the
batch itself has touched the concept. -/
theorem Effect.update_current {env : Setting} {p : Partition} {d d' : Draft} {payload : Concept}
    {cascades : List Cascade} (effect : Effect env p d (.update payload) cascades d') :
    ∃ former, d.find? p payload.id = some former ∧
      (d.isTouched ⟨p, payload.id⟩ = true ∨ former.revisionNumber ≤ payload.revisionNumber) := by
  cases effect with
  | update effect =>
    cases effect with
    | skipped request => exact ⟨_, request.stored, request.current⟩
    | unchanged request => exact ⟨_, request.stored, request.current⟩
    | stored request => exact ⟨_, request.stored, request.current⟩

/-- What a batch has touched is gone or bears a revision that was not there before. -/
theorem Tracks.differs {b : Memory.Contents} {d : Draft} (tracks : Tracks b d)
    (stamped : b.Stamped) {p : Partition} {id : ConceptId} {c : Concept}
    (touched : d.isTouched ⟨p, id⟩ = true) (stored : d.find? p id = some c) :
    b.find? p id ≠ some c := by
  intro before
  have taken := tracks.stamped ⟨p, id⟩ c touched stored
  have above := (tracks.raised p _ taken).1
  have below := stamped ⟨p, id⟩ c before
  exact UInt64.lt_irrefl _ (UInt64.lt_of_lt_of_le above below)

/-- A batch that succeeds with an update in it found a state that the update is not older than,
unless an earlier operation changed what is stored there. -/
theorem run_update_current {env : Setting} {p : Partition} {front back : List Operation}
    {payload : Concept} {v : Memory.View} {ids : IdSupply} {outcome : BatchOutcome}
    {s : State Memory.View} (stamped : v.contents.Stamped)
    (unwritten : ∀ t, applyAll env p 0 front { view := v, ids } = (.ok (), t) →
      t.view.contents.find? p payload.id = v.contents.find? p payload.id)
    (run : run env p (front ++ .update payload :: back) { view := v, ids } = (.ok outcome, s)) :
    ∃ former, v.contents.find? p payload.id = some former ∧
      former.revisionNumber ≤ payload.revisionNumber := by
  obtain ⟨_, s₁, applied, -⟩ := bind_eq_ok_iff.mp run
  obtain ⟨middle, passed, rest⟩ := applyAll_front_ok applied
  obtain ⟨_, s₂, updated, -⟩ := bind_eq_ok_iff.mp rest
  -- draining the update alone begins with executing it
  have updated : (execute env p (.update payload) >>= fun cascades =>
      if env.limit < 0 + cascades.length then fault (.cascadeLimitExceeded env.limit)
      else drain env env.limit (0 + cascades.length) ([] ++ cascades.map (place p))) middle =
        (.ok (), s₂) := mapError_eq_ok_iff.mp updated
  obtain ⟨cascades, s₃, executed, -⟩ := bind_eq_ok_iff.mp updated
  obtain ⟨former, stored, current⟩ := (execute_ok executed).update_current
  have tracks : Tracks v.contents middle.draft :=
    (Tracks.start (s := { view := v, ids }) rfl).writes (applyAll_writes passed)
  have before : v.contents.find? p payload.id = some former :=
    (unwritten middle passed).symm.trans stored
  rcases current with touched | current
  · exact absurd before (tracks.differs stamped touched stored)
  · exact ⟨former, before, current⟩

end Batch

namespace Memory

/-- The first operations of a request, with their cascades, leave what is stored under an
identifier as it was. Every write stamps a new revision, so this says that none of them has
written it. -/
def Unwritten (policy : Policy) (request : BatchRequest) (now : Instant) (ids : IdSupply)
    (db : Database) (front : List Operation) (id : ConceptId) : Prop :=
  ∀ s, Batch.applyAll (policy.settingFor request.actor) request.partition 0 front
      { view := db.opened now, ids } = (.ok (), s) →
    s.view.contents.find? request.partition id = db.contents.find? request.partition id

theorem newest?_eq_none {records : List RevisionRecord}
    (absent : Contents.newest? records = none) : records = [] := by
  cases records using List.reverseRecOn with
  | nil => rfl
  | append_singleton earlier last =>
    rw [Reader.newest?_concat] at absent
    split at absent
    · split at absent <;> cases absent
    · cases absent

/-- No record has a greater revision than the newest one. -/
theorem newest?_le {records : List RevisionRecord} {r b : RevisionRecord}
    (found : Contents.newest? records = some r) (member : b ∈ records) :
    b.revision ≤ r.revision := by
  induction records using List.reverseRecOn generalizing r with
  | nil => cases found
  | append_singleton earlier last ih =>
    rw [Reader.newest?_concat] at found
    have member : b ∈ earlier ∨ b = last := by simpa using member
    cases before : Contents.newest? earlier with
    | none =>
      rw [before] at found
      cases found
      rcases member with inside | rfl
      · rw [newest?_eq_none before] at inside
        cases inside
      · exact UInt64.le_refl _
    | some best =>
      rw [before] at found
      dsimp only at found
      split at found <;> cases found
      · rename_i newer
        rcases member with inside | rfl
        · exact UInt64.le_trans (ih before inside) newer
        · exact UInt64.le_refl _
      · rename_i older
        rcases member with inside | rfl
        · exact ih before inside
        · exact UInt64.le_of_lt (UInt64.not_le.mp older)

namespace Contents.Chronicled

variable {s : Contents} {p : Partition} {id : ConceptId} {r : RevisionRecord} {c : Concept}

/-- No record of a concept is newer than the revision of its stored state. -/
theorem recorded_le_stored (chronicled : s.Chronicled) (stored : s.find? p id = some c)
    (member : r ∈ s.recordsOf p id) : r.revision ≤ c.revisionNumber := by
  obtain ⟨newest, inside, latest, state⟩ := latest?_of_stored chronicled.logged stored
  have same := (chronicled.faithful newest (mem_recordsOf.mp inside).1 c state).2
  rw [same]
  exact newest?_le latest (List.mem_filter.mpr ⟨member, rfl⟩)

/-- What is stored is what the newest record says. -/
theorem stored_of_newest (chronicled : s.Chronicled) (member : r ∈ s.recordsOf p id)
    (newest : ∀ b ∈ s.recordsOf p id, b.revision ≤ r.revision) : s.find? p id = r.state := by
  rw [chronicled.logged p id]
  unfold Contents.latest?
  rw [List.filter_true]
  cases found : Contents.newest? (s.recordsOf p id) with
  | none =>
    rw [newest?_eq_none found] at member
    cases member
  | some best =>
    have inside := Reader.newest?_mem found
    have same : best.revision = r.revision :=
      UInt64.le_antisymm (newest best inside) (newest?_le found member)
    -- no two records of a concept have one revision, so both are the same record
    have distinct : ((s.recordsOf p id).map (·.revision)).Nodup := by
      refine List.pairwise_map.mpr ?_
      exact ((Contents.disciplined chronicled.sound chronicled.logged chronicled.ordered
        chronicled.faithful p).increasing id).imp UInt64.ne_of_lt
    rw [List.inj_on_of_nodup_map distinct inside member same]
    rfl

end Contents.Chronicled

/-- The log only grows. -/
theorem log_after_append (visits later : List Visit) :
    ∃ more, (Database.after (visits ++ later)).contents.log =
      (Database.after visits).contents.log ++ more := by
  induction later using List.reverseRecOn with
  | nil => exact ⟨[], by simp⟩
  | append_singleton earlier v ih =>
    obtain ⟨more, grown⟩ := ih
    rw [← List.append_assoc]
    rcases v.audit (visits ++ earlier) with same | ⟨outcome, changed, records, audit⟩
    · exact ⟨more, by rw [same, grown]⟩
    · exact ⟨more ++ records, by rw [audit.log, grown, List.append_assoc]⟩

theorem recordsOf_after_append (visits later : List Visit) {p : Partition} {id : ConceptId}
    {r : RevisionRecord} (member : r ∈ (Database.after visits).contents.recordsOf p id) :
    r ∈ (Database.after (visits ++ later)).contents.recordsOf p id := by
  obtain ⟨more, grown⟩ := log_after_append visits later
  obtain ⟨inside, address⟩ := mem_recordsOf.mp member
  rw [mem_recordsOf, grown]
  exact ⟨List.mem_append_left _ inside, address⟩

/-- A state that was told once and is not older than what is stored at the end was stored all the
time. -/
theorem stored_throughout {visits later : List Visit} {p : Partition} {c former : Concept}
    (told : (Database.after visits).contents.Tells p c)
    (stored : (Database.after (visits ++ later)).contents.find? p c.id = some former)
    (older : former.revisionNumber ≤ c.revisionNumber) (k : Nat) :
    (Database.after (visits ++ later.take k)).contents.find? p c.id = some c := by
  obtain ⟨r, member, state⟩ := told
  have revision := ((chronicled_after visits).faithful r (mem_recordsOf.mp member).1 c state).2
  have split : visits ++ later = visits ++ later.take k ++ later.drop k := by
    rw [List.append_assoc, List.take_append_drop]
  rw [← state]
  refine (chronicled_after _).stored_of_newest (recordsOf_after_append visits _ member) ?_
  intro b recorded
  -- what is logged by then is still logged at the end, where nothing is newer than what is stored
  have atEnd := recordsOf_after_append _ (later.drop k) recorded
  rw [← split] at atEnd
  have below := (chronicled_after _).recorded_le_stored stored atEnd
  rw [← revision]
  exact UInt64.le_trans below older

/-- Someone reads a state of a concept, and later a batch updates the concept from the revision
that was read. If the batch succeeds, what is stored has been that state ever since; if anything
changed it in between, the batch is rejected. -/
theorem no_lost_update (visits between : List Visit) (reader writer : Policy) (actor : Actor)
    (query : Query) (now now' : Instant) (request : BatchRequest) (ids : IdSupply)
    (front back : List Operation) (payload c : Concept) (answer : QueryAnswer)
    (read : (reader.answer actor request.partition query now (Database.after visits)).1.result =
      .ok answer)
    (told : c ∈ answer.states) (operations : request.operations = front ++ .update payload :: back)
    (target : payload.id = c.id) (carried : payload.revisionNumber = c.revisionNumber)
    (unwritten : Unwritten writer request now' ids
      (Database.after (visits ++ .read reader actor request.partition query now :: between))
      front c.id) :
    (∀ outcome, (writer.submit request now' ids (Database.after
        (visits ++ .read reader actor request.partition query now :: between))).1.result =
          .ok outcome →
      ∀ k ≤ between.length, (Database.after (visits ++ .read reader actor request.partition query
        now :: between.take k)).contents.find? request.partition c.id = some c) ∧
    ((∃ k < between.length,
        (Database.after (visits ++ .read reader actor request.partition query now ::
          between.take (k + 1))).contents.find? request.partition c.id ≠
        (Database.after (visits ++ .read reader actor request.partition query now ::
          between.take k)).contents.find? request.partition c.id) →
      ∃ f, (writer.submit request now' ids (Database.after
        (visits ++ .read reader actor request.partition query now :: between))).1.result =
          .error f) := by
  generalize looked : Visit.read reader actor request.partition query now = look at unwritten ⊢
  have known := answer_tells (chronicled_after visits) read c told
  have throughout : ∀ outcome, (writer.submit request now' ids
      (Database.after (visits ++ look :: between))).1.result = .ok outcome →
      ∀ k ≤ between.length, (Database.after (visits ++ look :: between.take k)).contents.find?
        request.partition c.id = some c := by
    intro outcome succeeds k _
    have available := (switches_after (visits ++ look :: between)).1
    rw [(submit_of_available available).1] at succeeds
    cases attempted : (Database.after (visits ++ look :: between)).attempt writer request now' ids with
    | mk result s =>
      rw [attempted] at succeeds
      cases result with
      | error f => cases succeeds
      | ok outcome' =>
        unfold Database.attempt at attempted
        rw [operations] at attempted
        obtain ⟨former, stored, current⟩ := Batch.run_update_current
          (sound_after (visits ++ look :: between)).stamped (target ▸ unwritten) attempted
        have present : (Database.after (visits ++ look :: between)).contents.find?
            request.partition c.id = some former := target ▸ stored
        exact stored_throughout known present (carried ▸ current) (k + 1)
  refine ⟨throughout, fun ⟨k, inside, differs⟩ => ?_⟩
  cases result : (writer.submit request now' ids
      (Database.after (visits ++ look :: between))).1.result with
  | error f => exact ⟨f, rfl⟩
  | ok outcome =>
    have before := throughout outcome result k (Nat.le_of_lt inside)
    have after := throughout outcome result (k + 1) inside
    exact absurd (after.trans before.symm) differs

/-- The site directory as its founder finds it. -/
def foundedDirectory : Concept :=
  { id := .ofNat 2, conceptType := .siteDirectory, revisionNumber := 1,
    properties := (({ id := .ofNat 2, conceptType := .siteDirectory } : Concept).withoutChildren).properties }

/-- The request with which the founder names the site directory from its first state. -/
def namingRequest (name : String) : BatchRequest :=
  { foundingRequest with
    operations := [.update (foundedDirectory.setProperty "name" (.text name))] }

/-- Two clients read the new site directory, and the second one to name it is turned away. -/
theorem no_lost_update_naming : ∃ f, (({} : Policy).submit (namingRequest "second") default
    ⟨.ofNat, 9⟩ (Database.after ([founding] ++ .read {} foundingRequest.actor .siteDirectory
      (.shallow [.ofNat 2] {}) default :: [.batch {} (namingRequest "first") default ⟨.ofNat, 6⟩]))).1.result =
        .error f := by
  refine (no_lost_update [founding] [.batch {} (namingRequest "first") default ⟨.ofNat, 6⟩] {} {}
    foundingRequest.actor (.shallow [.ofNat 2] {}) default default (namingRequest "second")
    ⟨.ofNat, 9⟩ [] [] _ foundedDirectory (.concepts [foundedDirectory]) ?_ ?_ rfl rfl rfl ?_).2
    ⟨0, by decide, ?_⟩
  · rfl
  · exact List.mem_singleton_self _
  · intro s run
    cases run
    rfl
  · decide +kernel

end Memory

end ConceptLedger
