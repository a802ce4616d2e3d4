import ConceptLedger.Query
import ConceptLedger.Proofs.Batch.Audit
import Mathlib.Data.List.Induction

/-!
Histories of the store in memory: what it holds after any sequence of batches and reads. Only a
batch that succeeds changes the contents, so what such batches keep holds after every history.
-/

namespace ConceptLedger.Memory

/-- What happens to a store: someone submits a batch to it or reads from it. -/
inductive Visit where
  | batch (policy : Policy) (request : BatchRequest) (now : Instant) (ids : IdSupply)
  | read (policy : Policy) (actor : Actor) (p : Partition) (query : Query) (now : Instant)

namespace Visit

/-- The rules under which a visit takes place. -/
def policy : Visit → Policy
  | batch policy _ _ _ => policy
  | read policy _ _ _ _ => policy

/-- The store after a visit. -/
def after (db : Database) : Visit → Database
  | batch policy request now ids => (policy.submit request now ids db).2
  | read policy actor p query now => (policy.answer actor p query now db).2

end Visit

/-- The store after visits in order, which is empty before the first of them. -/
def Database.after (visits : List Visit) : Database := visits.foldl Visit.after {}

theorem Database.after_concat (visits : List Visit) (v : Visit) :
    Database.after (visits ++ [v]) = v.after (Database.after visits) := by
  simp [Database.after]

/-- The request with which an administrator founds a site directory. -/
def foundingRequest : BatchRequest :=
  { context := ⟨"founding", none⟩
    actor := { id := .ofNat 1, name := "founder", isAdmin := true }
    partition := .siteDirectory
    operations := [.create { id := .ofNat 2, conceptType := .siteDirectory } none] }

/-- The visit that founds a site directory under the default policy. -/
def founding : Visit := .batch {} foundingRequest default ⟨.ofNat, 3⟩

theorem founding_standard {v : Visit} (standard : v.policy.registry = Registry.standard) :
    ∀ w ∈ [founding, v], w.policy.registry = Registry.standard := by
  intro w member
  rcases List.mem_pair.mp member with rfl | rfl
  · rfl
  · exact standard

/-- The visit that sets up a model with two iterations. -/
def iterating : Visit :=
  .batch {}
    { context := ⟨"iterating", none⟩
      actor := foundingRequest.actor
      partition := .siteDirectory
      operations := [
        .create { id := .ofNat 3, conceptType := .engineeringModelSetup, container := some (.ofNat 2) }
          none,
        .create { id := .ofNat 4, conceptType := .iterationSetup, container := some (.ofNat 3) } none,
        .create { id := .ofNat 5, conceptType := .iterationSetup, container := some (.ofNat 3) } none] }
    default ⟨.ofNat, 6⟩

/-- The request with which the founder deletes a concept of the site directory. -/
def deleting (id : ConceptId) (t : ConceptType) : BatchRequest :=
  { foundingRequest with operations := [.delete id t] }

/-- A stored concept with a property that can be computed. -/
theorem stored_of_any {visits : List Visit} {p : Partition} {x : ConceptId} {P : Concept → Prop}
    [DecidablePred P] (found : ((Database.after visits).contents.find? p x).any (P ·) = true) :
    ∃ c, (Database.after visits).contents.find? p x = some c ∧ P c := by
  obtain ⟨c, here, facts⟩ := (Option.any_eq_true _ _).mp found
  exact ⟨c, here, of_decide_eq_true facts⟩

theorem ok_of_toOption {ε α : Type} {x : Except ε α} {a : α} (succeeds : x.toOption = some a) :
    x = .ok a := by
  cases x with
  | error _ => cases succeeds
  | ok _ =>
    cases succeeds
    rfl

/-- One contents becomes another by a batch that succeeds under a policy. -/
structure Committed (policy : Policy) (request : BatchRequest) (before after : Contents)
    (outcome : BatchOutcome) : Prop where
  run : ∃ (v : View) (ids : IdSupply) (s : Batch.State View), v.contents = before ∧
    s.view.contents = after ∧
    Batch.run (policy.settingFor request.actor) request.partition request.operations
      { view := v, ids } = (.ok outcome, s)

theorem openView_eq (db : Database) (writable : Bool) (now : Instant) :
    (∃ time, (db.openView writable now).2 = { db with lastTime := time }) ∧
      ∀ v, (db.openView writable now).1 = .ok v → v.contents = db.contents := by
  unfold Database.openView
  split
  · exact ⟨⟨db.lastTime, rfl⟩, fun v opened => nomatch opened⟩
  · refine ⟨⟨_, rfl⟩, fun v opened => ?_⟩
    cases opened
    rfl

theorem openView_of_available {db : Database} (writable : Bool) (now : Instant)
    (available : db.unavailable = false) : db.openView writable now =
      (.ok ⟨db.contents, db.nextTime now, writable, db.rejectsLog⟩,
        { db with lastTime := some (db.nextTime now) }) := by
  simp [Database.openView, available]

/-- A read changes nothing but the time of the last transaction. -/
theorem reading_eq {α : Type} (policy : Policy) (op : String) (actor : Actor) (p : Partition)
    (options : ReadOptions) (now : Instant) (body : Reader View → ReadStep α) (db : Database) :
    ∃ time, (policy.reading op actor p options now body db).2 = { db with lastTime := time } := by
  obtain ⟨time, same⟩ := (openView_eq db false now).1
  have same : (Transactional.openRead now db).2 = { db with lastTime := time } := same
  unfold Policy.reading
  split
  · rename_i opened
    rw [opened] at same
    exact ⟨time, same⟩
  · rename_i opened
    rw [opened] at same
    exact ⟨time, same⟩

theorem answer_eq (policy : Policy) (actor : Actor) (p : Partition) (query : Query)
    (now : Instant) (db : Database) :
    ∃ time, (policy.answer actor p query now db).2 = { db with lastTime := time } := by
  cases query with
  | shallow ids options =>
    exact reading_eq policy "get_shallow" actor p options now (fun r => r.shallow ids none) db
  | deep ids options =>
    exact reading_eq policy "get_deep" actor p options now (fun r => r.deep ids none) db
  | asOf ids bound =>
    exact reading_eq policy "resolve_as_of" actor p {} now
      (fun r => Step.lift (r.asOf ids bound)) db
  | history id =>
    exact reading_eq policy "history" actor p {} now (fun r => Step.lift (r.history id)) db

/-- A batch that answers an outcome has committed it; any other leaves the contents alone. -/
theorem submit_contents (policy : Policy) (request : BatchRequest) (now : Instant) (ids : IdSupply)
    (db : Database) :
    (∃ outcome, (policy.submit request now ids db).1.result = .ok outcome ∧
      Committed policy request db.contents (policy.submit request now ids db).2.contents outcome) ∨
    (∃ f, (policy.submit request now ids db).1.result = .error f) ∧
      (policy.submit request now ids db).2.contents = db.contents := by
  obtain ⟨⟨time, same⟩, view⟩ := openView_eq db true now
  unfold Policy.submit
  split
  · rename_i f db' opened
    have opened : db.openView true now = (.error f, db') := opened
    rw [opened] at same
    obtain rfl : db' = { db with lastTime := time } := same
    exact .inr ⟨⟨_, rfl⟩, rfl⟩
  · rename_i v db' opened
    have opened : db.openView true now = (.ok v, db') := opened
    rw [opened] at same view
    obtain rfl : db' = { db with lastTime := time } := same
    split
    · rename_i outcome s run
      exact .inl ⟨outcome, rfl, ⟨v, ids, s, view v rfl, rfl, run⟩⟩
    · exact .inr ⟨⟨_, rfl⟩, rfl⟩

/-- A batch leaves the switches of a store as they are. -/
theorem submit_switches (policy : Policy) (request : BatchRequest) (now : Instant) (ids : IdSupply)
    (db : Database) :
    ∃ contents time, (policy.submit request now ids db).2 =
      { db with contents := contents, lastTime := time } := by
  obtain ⟨⟨time, same⟩, -⟩ := openView_eq db true now
  have same : (Transactional.openWrite now db).2 = { db with lastTime := time } := same
  unfold Policy.submit
  split
  · rename_i f db' opened
    rw [opened] at same
    exact ⟨db.contents, time, same⟩
  · rename_i v db' opened
    rw [opened] at same
    obtain rfl : db' = { db with lastTime := time } := same
    split
    · exact ⟨_, time, rfl⟩
    · exact ⟨db.contents, time, rfl⟩

/-- No history makes a store unavailable or its log reject what is written to it. -/
theorem switches_after (visits : List Visit) :
    (Database.after visits).unavailable = false ∧ (Database.after visits).rejectsLog = false := by
  induction visits using List.reverseRecOn with
  | nil => exact ⟨rfl, rfl⟩
  | append_singleton earlier v ih =>
    rw [Database.after_concat]
    cases v with
    | read policy actor p query now =>
      obtain ⟨time, same⟩ := answer_eq policy actor p query now (Database.after earlier)
      rw [Visit.after, same]
      exact ih
    | batch policy request now ids =>
      obtain ⟨contents, time, same⟩ :=
        submit_switches policy request now ids (Database.after earlier)
      rw [Visit.after, same]
      exact ih

/-- No history makes a store unavailable. -/
theorem unavailable_after (visits : List Visit) : (Database.after visits).unavailable = false :=
  (switches_after visits).1

/-- What the empty contents have and every committed batch among the visits keeps holds after them. -/
theorem after_keeps_committed {P : Contents → Prop} {visits : List Visit} (start : P {})
    (step : ∀ policy request now ids, Visit.batch policy request now ids ∈ visits →
      ∀ before after outcome, P before → Committed policy request before after outcome → P after) :
    P (Database.after visits).contents := by
  induction visits using List.reverseRecOn with
  | nil => exact start
  | append_singleton earlier v ih =>
    have before := ih fun policy request now ids member =>
      step policy request now ids (List.mem_append_left _ member)
    rw [Database.after_concat]
    cases v with
    | read policy actor p query now =>
      obtain ⟨time, same⟩ := answer_eq policy actor p query now (Database.after earlier)
      rw [Visit.after, same]
      exact before
    | batch policy request now ids =>
      rcases submit_contents policy request now ids (Database.after earlier) with
        ⟨outcome, -, committed⟩ | ⟨-, same⟩
      · exact step policy request now ids (by simp) _ _ _ before committed
      · rw [Visit.after, same]
        exact before

/-- What the empty contents have and every committed batch keeps holds after every history. The
batches may be restricted to certain policies. -/
theorem after_keeps {P : Contents → Prop} {A : Policy → Prop} (start : P {})
    (step : ∀ policy request before after outcome, A policy → P before →
      Committed policy request before after outcome → P after)
    (visits : List Visit) (policies : ∀ v ∈ visits, A v.policy) :
    P (Database.after visits).contents :=
  after_keeps_committed start fun policy request _ _ member before after outcome =>
    step policy request before after outcome (policies _ member)

/-- Contents whose concepts and log agree with the identifiers and the counters. -/
structure Contents.Sound (s : Contents) : Prop where
  keyed : s.Keyed
  stamped : s.Stamped
  recorded : ∀ r ∈ s.log, r.revision ≤ s.counter r.partition

theorem Committed.audit {policy : Policy} {request : BatchRequest} {before after : Contents}
    {outcome : BatchOutcome} (committed : Committed policy request before after outcome)
    (stamped : before.Stamped) : ∃ changed records, Batch.Audit before after outcome changed records := by
  obtain ⟨v, ids, s, rfl, rfl, run⟩ := committed.run
  exact Batch.run_audit stamped run

theorem Committed.keyed {policy : Policy} {request : BatchRequest} {before after : Contents}
    {outcome : BatchOutcome} (committed : Committed policy request before after outcome)
    (keyed : before.Keyed) : after.Keyed := by
  obtain ⟨v, ids, s, rfl, rfl, run⟩ := committed.run
  exact Batch.run_keyed keyed run

end ConceptLedger.Memory

namespace ConceptLedger.Batch.Audit

open Memory

variable {before after : Contents} {outcome : BatchOutcome} {changed : List Address}
  {records : List RevisionRecord}

theorem counter_le (audit : Audit before after outcome changed records) (p : Partition) :
    before.counter p ≤ after.counter p := by
  rw [audit.counters]
  cases taken : outcome.revisions.find? p with
  | none => exact UInt64.le_refl _
  | some r => exact UInt64.le_of_lt (audit.raised p r taken)

/-- New records bear the new counter, which the former one had not reached. -/
theorem revision_eq (audit : Audit before after outcome changed records) {r : RevisionRecord}
    (member : r ∈ records) :
    r.revision = after.counter r.partition ∧ before.counter r.partition < r.revision := by
  have taken := audit.revisions r member
  refine ⟨?_, audit.raised _ _ taken⟩
  rw [audit.counters, taken]
  rfl

theorem stamped (audit : Audit before after outcome changed records) (stamped : before.Stamped) :
    after.Stamped := by
  intro a c found
  by_cases change : a ∈ changed
  · rw [audit.counters, audit.stamps a change c found]
    exact UInt64.le_refl _
  · have same : before.at? a = after.at? a := by
      by_contra differs
      exact change ((audit.exact a).mpr differs)
    exact UInt64.le_trans (stamped a c (same.trans found)) (audit.counter_le a.partition)

theorem recorded_le (audit : Audit before after outcome changed records)
    (reached : ∀ r ∈ before.log, r.revision ≤ before.counter r.partition) :
    ∀ r ∈ after.log, r.revision ≤ after.counter r.partition := by
  intro r member
  rw [audit.log] at member
  rcases List.mem_append.mp member with former | new
  · exact UInt64.le_trans (reached r former) (audit.counter_le r.partition)
  · rw [(audit.revision_eq new).1]
    exact UInt64.le_refl _

end ConceptLedger.Batch.Audit

namespace ConceptLedger.Memory

theorem Contents.sound_empty : Contents.Sound {} where
  keyed _ _ found := nomatch found
  stamped _ _ found := nomatch found
  recorded _ member := nomatch member

theorem Committed.sound {policy : Policy} {request : BatchRequest} {before after : Contents}
    {outcome : BatchOutcome} (committed : Committed policy request before after outcome)
    (sound : before.Sound) : after.Sound := by
  obtain ⟨changed, records, audit⟩ := committed.audit sound.stamped
  exact ⟨committed.keyed sound.keyed, audit.stamped sound.stamped, audit.recorded_le sound.recorded⟩

/-- After every history the contents are in order, whatever the policies were. -/
theorem sound_after (visits : List Visit) : (Database.after visits).contents.Sound :=
  after_keeps (A := fun _ => True) Contents.sound_empty
    (fun _ _ _ _ _ _ sound committed => committed.sound sound) visits fun _ _ => trivial

end ConceptLedger.Memory
