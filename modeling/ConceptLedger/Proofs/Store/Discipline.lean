import ConceptLedger.Proofs.Store.TimeTravel

/-!
The discipline of revisions. A batch that succeeds takes the next revision of each partition that
it changes and of no partition twice; whatever it stores or logs there bears that revision. So the
records of a concept are in strictly increasing order, and none is ever logged twice.
-/

namespace ConceptLedger

theorem RevisionRecord.address_eq_iff {a b : RevisionRecord} :
    a.address = b.address ↔ a.partition = b.partition ∧ a.conceptId = b.conceptId := by
  simp [RevisionRecord.address]

namespace Batch

/-- The revision that a batch takes in a partition is the one after the counter that it found. -/
theorem Write.taken_next {b : Memory.Contents} {d d' : Draft} (tracks : Tracks b d)
    (own : ∀ p r, d.allocated.find? p = some r → r = b.counter p + 1) (step : Write d d') :
    ∀ p r, d'.allocated.find? p = some r → r = b.counter p + 1 := by
  cases step with
  | @take q untaken room =>
    intro p r known
    rw [Draft.find?_allocated_allot untaken] at known
    split at known
    · rename_i here
      cases known
      rw [here, Draft.revision, untaken, Option.getD_none, tracks.free q untaken]
    · exact own p r known
  | add | replace =>
    rw [Draft.allocated_put]
    exact own
  | remove =>
    rw [Draft.allocated_drop]
    exact own

theorem run_taken_next {env : Setting} {p : Partition} {operations : List Operation}
    {v : Memory.View} {ids : IdSupply} {outcome : BatchOutcome} {s : State Memory.View}
    (run : run env p operations { view := v, ids } = (.ok outcome, s)) :
    ∀ q r, outcome.revisions.find? q = some r → r = v.contents.counter q + 1 := by
  obtain ⟨_, s₁, applied, finished⟩ := Step.bind_eq_ok_iff.mp run
  obtain ⟨records, -, -, rfl⟩ := finish_ok finished
  have start : Tracks v.contents (State.draft { view := v, ids }) :=
    Tracks.start (s := { view := v, ids }) rfl
  exact (Writes.keeps
    (I := fun d => Tracks v.contents d ∧
      ∀ q r, d.allocated.find? q = some r → r = v.contents.counter q + 1)
    (fun _ _ before step => ⟨before.1.write step, step.taken_next before.1 before.2⟩)
    ⟨start, fun _ _ taken => nomatch taken⟩ (applyAll_writes applied)).2

end Batch

namespace Memory

/-- The records of each concept stand in the order of their revisions, no two with the same. -/
def Contents.Ordered (s : Contents) : Prop :=
  s.log.Pairwise fun a b => a.address = b.address → a.revision < b.revision

/-- A logged state is that of the concept it is logged for, at the revision it is logged under. -/
def Contents.Faithful (s : Contents) : Prop :=
  ∀ r ∈ s.log, ∀ c, r.state = some c → c.id = r.conceptId ∧ c.revisionNumber = r.revision

/-- How the counter, the concepts and the records of a partition keep in step. -/
structure Contents.Disciplined (s : Contents) (p : Partition) : Prop where
  stamped : ∀ id c, s.find? p id = some c → c.revisionNumber ≤ s.counter p
  recorded : ∀ r ∈ s.log, r.partition = p → r.revision ≤ s.counter p
  newest : ∀ id c, s.find? p id = some c →
    ∃ r, s.latest? p id (fun _ => true) = some r ∧ r.state = some c ∧
      r.revision = c.revisionNumber
  increasing : ∀ id, (s.recordsOf p id).Pairwise fun a b => a.revision < b.revision
  once : s.log.Pairwise fun a b =>
    ¬ (a.partition = b.partition ∧ a.conceptId = b.conceptId ∧ a.revision = b.revision)

/-- How a batch that succeeds moves a partition on. The partition has a new revision when the
outcome says so, and always when anything in it has changed. -/
structure Revised (before after : Contents) (outcome : BatchOutcome) (p : Partition) : Prop where
  raised : ∀ r, outcome.revisions.find? p = some r →
    r = after.counter p ∧ (after.counter p).toNat = (before.counter p).toNat + 1
  kept : outcome.revisions.find? p = none → after.counter p = before.counter p ∧
    (∀ id, after.find? p id = before.find? p id) ∧
    ∀ id, after.recordsOf p id = before.recordsOf p id
  stamped : ∀ id c, after.find? p id = some c → before.find? p id ≠ some c →
    c.revisionNumber = after.counter p
  recorded : ∃ records, after.log = before.log ++ records ∧
    ∀ r ∈ records, r.partition = p → r.revision = after.counter p ∧
      ∀ c, r.state = some c → c.revisionNumber = after.counter p

end Memory

namespace Batch.Audit

open Memory

variable {before after : Contents} {outcome : BatchOutcome} {changed : List Address}
  {records : List RevisionRecord}

/-- Every new record is about a changed address. -/
theorem address_changed (audit : Audit before after outcome changed records) {r : RevisionRecord}
    (member : r ∈ records) : r.address ∈ changed :=
  audit.recorded.mem_iff.mp (List.mem_map_of_mem member)

/-- Where anything has changed a revision was taken. -/
theorem taken_of_changed (audit : Audit before after outcome changed records) {a : Address}
    (change : a ∈ changed) : (outcome.revisions.find? a.partition).isSome = true := by
  obtain ⟨r, member, rfl⟩ := List.mem_map.mp (audit.recorded.mem_iff.mpr change)
  have taken := audit.revisions r member
  exact Option.isSome_of_eq_some taken

theorem state_revision (audit : Audit before after outcome changed records) {r : RevisionRecord}
    (member : r ∈ records) {c : Concept} (state : r.state = some c) :
    c.revisionNumber = r.revision := by
  have stored : after.at? r.address = some c := (audit.states r member).symm.trans state
  have stamp := audit.stamps _ (audit.address_changed member) c stored
  exact Option.some.inj (stamp.symm.trans (audit.revisions r member))

theorem faithful (audit : Audit before after outcome changed records) (keyed : after.Keyed)
    (faithful : before.Faithful) : after.Faithful := by
  intro r member c state
  rw [audit.log] at member
  rcases List.mem_append.mp member with former | new
  · exact faithful r former c state
  · exact ⟨keyed _ c ((audit.states r new).symm.trans state), audit.state_revision new state⟩

theorem ordered (audit : Audit before after outcome changed records) (sound : before.Sound)
    (ordered : before.Ordered) : after.Ordered := by
  unfold Contents.Ordered
  rw [audit.log]
  refine List.pairwise_append.mpr ⟨ordered, ?_, fun b former r new same => ?_⟩
  · -- a batch logs at most one record for an address
    have distinct : (records.map RevisionRecord.address).Nodup :=
      audit.recorded.nodup_iff.mpr audit.once
    exact (List.pairwise_map.mp distinct).imp fun apart same => absurd same apart
  · exact audit.newer sound new former (congrArg Address.partition same)

theorem revised (audit : Audit before after outcome changed records)
    (next : ∀ p r, outcome.revisions.find? p = some r → r = before.counter p + 1)
    (p : Partition) : Revised before after outcome p where
  raised r taken := by
    have counter : after.counter p = r := by
      rw [audit.counters, taken, Option.getD_some]
    have above := UInt64.lt_iff_toNat_lt.mp (audit.raised p r taken)
    have value := congrArg UInt64.toNat (next p r taken)
    rw [counter]
    refine ⟨rfl, ?_⟩
    rw [UInt64.toNat_add] at value
    have one : (1 : UInt64).toNat = 1 := rfl
    omega
  kept untaken := by
    -- whatever changes takes a revision, so here nothing has changed
    have quiet : ∀ id, (⟨p, id⟩ : Address) ∉ changed := fun id change => by
      have taken := audit.taken_of_changed change
      rw [untaken] at taken
      cases taken
    refine ⟨by rw [audit.counters, untaken, Option.getD_none], fun id => ?_, fun id => ?_⟩
    · by_contra differs
      exact quiet id ((audit.exact _).mpr (Ne.symm differs))
    · rcases audit.recordsOf p id with ⟨-, kept⟩ | ⟨r, member, rfl, -, -⟩
      · exact kept
      · rw [audit.revisions r member] at untaken
        cases untaken
  stamped id c stored differs := by
    have change : (⟨p, id⟩ : Address) ∈ changed :=
      (audit.exact _).mpr fun same => differs (same.trans stored)
    have stamp := audit.stamps _ change c stored
    rw [audit.counters, stamp, Option.getD_some]
  recorded := by
    refine ⟨records, audit.log, fun r member here => ?_⟩
    subst here
    have revision := (audit.revision_eq member).1
    exact ⟨revision, fun c state => (audit.state_revision member state).trans revision⟩

end Batch.Audit

namespace Memory

theorem Committed.taken_next {policy : Policy} {request : BatchRequest} {before after : Contents}
    {outcome : BatchOutcome} (committed : Committed policy request before after outcome) :
    ∀ p r, outcome.revisions.find? p = some r → r = before.counter p + 1 := by
  obtain ⟨v, ids, s, rfl, rfl, run⟩ := committed.run
  exact Batch.run_taken_next run

/-- After every history the log is in order and tells the truth. -/
theorem ordered_after (visits : List Visit) : (Database.after visits).contents.Ordered ∧
    (Database.after visits).contents.Faithful :=
  (after_keeps (P := fun s => s.Sound ∧ s.Ordered ∧ s.Faithful) (A := fun _ => True)
    ⟨Contents.sound_empty, .nil, fun _ member => nomatch member⟩
    (fun _ _ _ _ _ _ ⟨sound, ordered, faithful⟩ committed => by
      obtain ⟨changed, records, audit⟩ := committed.audit sound.stamped
      have after := committed.sound sound
      exact ⟨after, audit.ordered sound ordered, audit.faithful after.keyed faithful⟩)
    visits fun _ _ => trivial).2

/-- What is stored is the newest state in the log. -/
theorem latest?_of_stored {s : Contents} (logged : s.Logged) {p : Partition} {id : ConceptId}
    {c : Concept} (stored : s.find? p id = some c) :
    ∃ r ∈ s.recordsOf p id, s.latest? p id (fun _ => true) = some r ∧ r.state = some c := by
  have told := (logged p id).symm.trans stored
  obtain ⟨r, newest, state⟩ := Option.bind_eq_some_iff.mp told
  refine ⟨r, ?_, newest, state⟩
  have member := Reader.newest?_mem newest
  exact (List.mem_filter.mp member).1

theorem Contents.disciplined {s : Contents} (sound : s.Sound) (logged : s.Logged)
    (ordered : s.Ordered) (faithful : s.Faithful) (p : Partition) : s.Disciplined p where
  stamped id c stored := sound.stamped ⟨p, id⟩ c stored
  recorded r member here := here ▸ sound.recorded r member
  newest id c stored := by
    obtain ⟨r, member, newest, state⟩ := latest?_of_stored logged stored
    exact ⟨r, newest, state, (faithful r (mem_recordsOf.mp member).1 c state).2.symm⟩
  increasing id := by
    refine (ordered.filter _).imp_of_mem fun inside inside' below => below ?_
    exact (mem_recordsOf.mp inside).2.trans (mem_recordsOf.mp inside').2.symm
  once := ordered.imp fun below ⟨sameP, sameId, sameR⟩ => by
    have above := below (RevisionRecord.address_eq_iff.mpr ⟨sameP, sameId⟩)
    rw [sameR] at above
    exact UInt64.lt_irrefl _ above

/-- After every history the revisions of every partition are in order. A batch that is rejected
leaves them alone, and one that succeeds moves the partitions that it changes on by one. -/
theorem revision_discipline (visits : List Visit) (policy : Policy) (request : BatchRequest)
    (now : Instant) (ids : IdSupply) (p : Partition) :
    (Database.after visits).contents.Disciplined p ∧
    (∀ f, (policy.submit request now ids (Database.after visits)).1.result = .error f →
      (policy.submit request now ids (Database.after visits)).2.contents.counter p =
        (Database.after visits).contents.counter p) ∧
    (∀ outcome, (policy.submit request now ids (Database.after visits)).1.result = .ok outcome →
      Revised (Database.after visits).contents
        (policy.submit request now ids (Database.after visits)).2.contents outcome p) := by
  have sound := sound_after visits
  obtain ⟨ordered, faithful⟩ := ordered_after visits
  refine ⟨Contents.disciplined sound (logged_after visits) ordered faithful p, ?_, ?_⟩
  · intro f rejected
    rcases submit_contents policy request now ids (Database.after visits) with
      ⟨outcome, answered, -⟩ | ⟨-, same⟩
    · cases rejected.symm.trans answered
    · rw [same]
  · intro outcome succeeds
    rcases submit_contents policy request now ids (Database.after visits) with
      ⟨outcome', answered, committed⟩ | ⟨⟨f, refused⟩, -⟩
    · cases succeeds.symm.trans answered
      obtain ⟨changed, records, audit⟩ := committed.audit sound.stamped
      exact audit.revised committed.taken_next p
    · cases succeeds.symm.trans refused

end Memory

end ConceptLedger
