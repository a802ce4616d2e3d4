import ConceptLedger.Proofs.Containment.Walk
import ConceptLedger.Proofs.Store.Rejection

/-!
Partitions are isolated. A batch that meets no hooks works in one partition only: what it answers
and what it leaves there depend on that partition alone, apart from the time of its records, and all
other partitions stay as they are. So two such batches in different partitions commute.
-/

namespace ConceptLedger

/-- Operations on concepts of types for which the registry has no hooks. -/
def Registry.Spares (registry : Registry) (operations : List Operation) : Prop :=
  ∀ operation ∈ operations, registry.hasHooks operation.conceptType = false

namespace RevisionRecord

/-- The record with another time of its commit. -/
def dated (time : Instant) (r : RevisionRecord) : RevisionRecord := { r with committedAt := time }

end RevisionRecord

namespace Memory

open Batch

/-- What contents hold in one partition. -/
structure Part where
  concepts : ConceptId → Option Concept
  counter : UInt64
  log : List RevisionRecord

namespace Part

/-- What is left of a part when the times of its records are set aside. -/
def undated (part : Part) : Part := { part with log := part.log.map (.dated default) }

/-- The part with other concepts and another counter, and with records added at a time. -/
def advance (part fresh : Part) (time : Instant) : Part :=
  ⟨fresh.concepts, fresh.counter, part.log ++ fresh.log.map (.dated time)⟩

theorem undated_eq_iff {part part' : Part} : part.undated = part'.undated ↔
    part.concepts = part'.concepts ∧ part.counter = part'.counter ∧
      part.log.map (RevisionRecord.dated default) = part'.log.map (RevisionRecord.dated default) := by
  simp [undated]

/-- The times of the new records are set aside with the others. -/
theorem undated_advance (part fresh : Part) (time : Instant) :
    (part.advance fresh time).undated = part.undated.advance fresh default := by
  have same : (RevisionRecord.dated default ∘ RevisionRecord.dated time) = .dated default := rfl
  simp only [undated, advance, List.map_append, List.map_map, same]

end Part

namespace Contents

/-- The part of a partition. -/
def part (s : Contents) (p : Partition) : Part :=
  ⟨s.find? p, s.counter p, s.log.filter fun r => r.partition = p⟩

/-- A part to which nothing was added. -/
theorem part_unchanged (s : Contents) (p : Partition) (time : Instant) :
    s.part p = (s.part p).advance ⟨s.find? p, s.counter p, []⟩ time := by
  simp [part, Part.advance]

/-- A part after changes were recorded at a time. -/
theorem part_recorded {before after : Contents} {changes : List (Partition × Change)}
    {taken : SortedMap Partition UInt64} {time : Instant}
    (log : after.log = before.log ++ changes.map (recordAt taken time)) (p : Partition) :
    after.part p = (before.part p).advance
      ⟨after.find? p, after.counter p,
        (changes.map (recordAt taken default)).filter fun r => r.partition = p⟩ time := by
  have dated : changes.map (recordAt taken time) =
      (changes.map (recordAt taken default)).map (.dated time) := by
    rw [List.map_map]
    rfl
  simp only [part, Part.advance, log, dated, List.filter_append, List.filter_map]
  rfl

end Contents

end Memory

namespace Batch.Audit

open Memory

/-- Where a batch took no revision, it has left everything as it was. -/
theorem part_eq {before after : Contents} {outcome : BatchOutcome}
    {changed : List Address} {records : List RevisionRecord}
    (audit : Audit before after outcome changed records) {q : Partition}
    (untaken : outcome.revisions.find? q = none) : after.part q = before.part q := by
  have apart : ∀ r ∈ records, r.partition ≠ q := by
    rintro r member rfl
    rw [audit.revisions r member] at untaken
    cases untaken
  have finds : after.find? q = before.find? q := by
    funext id
    by_contra differs
    have change : (⟨q, id⟩ : Address) ∈ changed := (audit.exact _).mpr fun same => differs same.symm
    obtain ⟨r, member, address⟩ := List.mem_map.mp (audit.recorded.mem_iff.mpr change)
    exact apart r member (congrArg Address.partition address)
  have counter : after.counter q = before.counter q := by
    rw [audit.counters, untaken]
    rfl
  have log : records.filter (fun r => r.partition = q) = [] :=
    List.filter_eq_nil_iff.mpr fun r member => by simpa using apart r member
  simp only [Contents.part, finds, counter, audit.log, List.filter_append, log, List.append_nil]

end Batch.Audit

namespace Memory

open Step Batch

namespace View

/-- Two views on which a batch runs alike in a partition: they can be written to, and hold the same
concepts and the same counter there. The batch takes revisions nowhere else. -/
structure Facing (p : Partition) (taken : SortedMap Partition UInt64) (v w : View) : Prop where
  writable : v.writable = true ∧ w.writable = true
  finds : v.contents.find? p = w.contents.find? p
  counter : v.contents.counter p = w.contents.counter p
  only : ∀ q r, taken.find? q = some r → q = p

variable {p : Partition} {taken : SortedMap Partition UInt64} {v w : View}

theorem facing_kindred (p : Partition) (taken : SortedMap Partition UInt64) :
    Kindred (Facing p taken) p where
  writable facing := facing.writable
  finds facing := facing.finds
  put {v w} facing c := by
    refine ⟨facing.writable, funext fun id => ?_, facing.counter, facing.only⟩
    show (v.contents.put p c).find? p id = (w.contents.put p c).find? p id
    rw [Contents.find?_put, Contents.find?_put, facing.finds]
  drop {v w} facing x := by
    refine ⟨facing.writable, funext fun id => ?_, facing.counter, facing.only⟩
    show (v.contents.drop p x).find? p id = (w.contents.drop p x).find? p id
    rw [Contents.find?_drop, Contents.find?_drop, facing.finds]

/-- Both views count the same revision. -/
theorem Facing.take (facing : Facing p taken v w) (r : UInt64) :
    Facing p (taken.insert p r) { v with contents := v.contents.count p r }
      { w with contents := w.contents.count p r } where
  writable := facing.writable
  finds := facing.finds
  counter := by
    show (v.contents.count p r).counter p = (w.contents.count p r).counter p
    rw [Contents.counter_count, Contents.counter_count, if_pos rfl, if_pos rfl]
  only q n known := by
    rw [SortedMap.find?_insert] at known
    split at known
    · assumption
    · exact facing.only q n known

/-- Operations in the partition go alike on facing views, with the same failures. -/
theorem facing_simulation (p : Partition) (types : ConceptType → Prop) :
    Simulation (Facing p) Eq { partitions := fun q => q = p, types } where
  plain _ _ := rfl
  finds := by
    rintro taken v w q facing rfl
    funext id
    rw [find?_eq, find?_eq, facing.finds]
  serves _ _ id := ⟨_, find?_eq _ _ id, fun _ _ _ _ _ => trivial⟩
  walks := by
    rintro taken v w q facing rfl root
    exact subtree_congr facing.finds root
  writes := by
    rintro taken q rfl c -
    exact (facing_kindred q taken).write c
  updates := by
    rintro taken q rfl c -
    exact (facing_kindred q taken).update c
  deletes := by
    rintro taken q rfl id
    exact (facing_kindred q taken).delete id
  raises := by
    rintro taken v w q facing rfl -
    have left := nextRevision_cases q facing.writable.1
    have right := nextRevision_cases q facing.writable.2
    rw [← facing.counter] at right
    rcases left with ⟨room, run⟩ | ⟨ended, run⟩
    · obtain ⟨-, run'⟩ := right.resolve_right fun spent => room spent.1
      exact .inl ⟨_, _, _, run, run', facing.take _⟩
    · obtain ⟨-, run'⟩ := right.resolve_left fun more => more.1 ended
      exact .inr ⟨_, _, run', fun _ => ⟨_, _, run, rfl, facing⟩⟩

/-- The log of a view takes what is new: it is open and has nothing above the counters. -/
structure Ready (v : View) : Prop where
  accepts : v.rejectsLog = false
  recorded : ∀ r ∈ v.contents.log, r.revision ≤ v.contents.counter r.partition

end View

section Runs

variable {env : Setting} {p : Partition} {operations : List Operation} {v w : View}
  {s : State View}

/-- A batch can be recorded on a view that is ready for it. Its partition is left as the batch sees
it, with the records of the changes. -/
theorem finish_advances (ready : v.Ready) (writable : s.view.writable = true)
    (writes : Writes ⟨v, [], .empty, .empty⟩ s.draft) :
    ∃ t, Batch.finish p s = (.ok (s.draft.outcome p), t) ∧
      t.view.contents.part p = (v.contents.part p).advance
        ⟨s.view.contents.find? p, s.view.contents.counter p,
          ((byPartition s.draft.changes).map (recordAt s.allocated default)).filter
            fun r => r.partition = p⟩ v.time := by
  have tracks : Tracks v.contents s.draft :=
    (Tracks.start (s := { view := v, ids := ⟨.ofNat, 0⟩ }) rfl).writes writes
  obtain ⟨inner, same⟩ := writes.view
  have same : s.view = { v with contents := inner } := same
  obtain ⟨outcome, t, ended⟩ := finish_succeeds (p := p) tracks ready.recorded writable
    (by rw [same]; exact ready.accepts)
  obtain ⟨contents, rfl⟩ := finish_eq ended
  have log : t.view.contents.log =
      v.contents.log ++ (byPartition s.draft.changes).map (recordAt s.allocated v.time) := by
    rw [contents, ← tracks.log, show v.time = s.view.time by rw [same]]
    rfl
  refine ⟨t, ended, ?_⟩
  rw [Contents.part_recorded log p, contents]
  rfl

/-- On facing views a batch that touched one partition is told the same changes. -/
theorem changes_facing {b : Contents} (tracks : Tracks b s.draft)
    (facing : View.Facing p s.allocated s.view w) (ids : IdSupply) :
    (s.onto w ids).draft.changes = s.draft.changes := by
  refine List.filterMap_congr fun t touched => ?_
  obtain ⟨r, taken⟩ := Option.isSome_iff_exists.mp (tracks.taken t touched)
  have inside : t.address.partition = p := facing.only _ r taken
  have same : (s.onto w ids).draft.find? t.address.partition = s.draft.find? t.address.partition := by
    rw [inside]
    exact facing.finds.symm
  unfold Draft.settled
  rw [same]
  rfl

/-- The operations of a batch without hooks go alike on facing views. -/
theorem applyAll_facing (hookless : env.registry.Spares operations) :
    Alike (Paired (View.Facing p) fun _ _ => True) Eq (fun _ => True) (applyAll env p 0 operations)
      (applyAll env p 0 operations) := by
  let scope : Batch.Scope :=
    { partitions := fun q => q = p, types := fun t => env.registry.hasHooks t = false }
  have hooks : Conducts env (View.Facing p) (fun _ _ => True) Eq scope true :=
    .of_hookless fun _ none => none
  have admitted : ∀ operation ∈ operations, scope.Admits (p, operation) := by
    intro operation member
    refine ⟨rfl, hookless operation member, ?_⟩
    cases operation <;> first | exact fun _ _ _ => trivial | trivial
  exact (View.facing_simulation p _).applyAll hooks (fun e f index same => same ▸ rfl) 0 admitted

/-- A batch without hooks fails alike on facing views, or it succeeds with the same outcome and
leaves the same in its partition, but for the time of its records. -/
theorem run_facing (hookless : env.registry.Spares operations) (facing : View.Facing p .empty v w)
    (ready : v.Ready) (ready' : w.Ready) (ids ids' : IdSupply) :
    (∃ f s t, Batch.run env p operations { view := v, ids } = (.error f, s) ∧
      Batch.run env p operations { view := w, ids := ids' } = (.error f, t)) ∨
    ∃ outcome s t fresh, Batch.run env p operations { view := v, ids } = (.ok outcome, s) ∧
      Batch.run env p operations { view := w, ids := ids' } = (.ok outcome, t) ∧
      s.view.contents.part p = (v.contents.part p).advance fresh v.time ∧
      t.view.contents.part p = (w.contents.part p).advance fresh w.time ∧
      ∀ q r, outcome.revisions.find? q = some r → q = p := by
  have outcomes := applyAll_facing hookless { view := v, ids } { view := w, ids := ids' }
    ⟨w, ids', rfl, facing, trivial⟩
  unfold Batch.run
  generalize left : applyAll env p 0 operations { view := v, ids } = x at outcomes
  generalize right : applyAll env p 0 operations { view := w, ids := ids' } = y at outcomes
  cases outcomes with
  | error same _ =>
    obtain rfl := same
    exact .inl ⟨_, _, _, bind_of_error left, bind_of_error right⟩
  | @ok _ s t _ _ states =>
    obtain ⟨w', supply, rfl, facing', -⟩ := states
    have writes : Writes ⟨v, [], .empty, .empty⟩ s.draft := applyAll_writes left
    obtain ⟨s₁, ended, here⟩ := finish_advances (p := p) ready facing'.writable.1 writes
    obtain ⟨t₁, ended', there⟩ := finish_advances (p := p) ready' facing'.writable.2
      (applyAll_writes right)
    have tracks : Tracks v.contents s.draft := (Tracks.start (s := { view := v, ids }) rfl).writes writes
    have changes := changes_facing tracks facing' supply
    have outcome : (s.onto w' supply).draft.outcome p = s.draft.outcome p := by
      unfold Draft.outcome
      rw [changes]
      rfl
    rw [outcome] at ended'
    refine .inr ⟨_, s₁, t₁, _, (bind_of_ok left).trans ended, (bind_of_ok right).trans ended', here,
      ?_, facing'.only⟩
    rw [there, changes, facing'.finds, facing'.counter]
    rfl

end Runs

/-- A store that takes batches: it is available, its log is open, and its contents are in order. -/
structure Database.Serving (db : Database) : Prop where
  available : db.unavailable = false
  accepts : db.rejectsLog = false
  sound : db.contents.Sound

theorem Database.serving_after (visits : List Visit) : (Database.after visits).Serving :=
  ⟨(switches_after visits).1, (switches_after visits).2, sound_after visits⟩

section Submissions

variable {policy policy' : Policy} {request request' : BatchRequest} {db db' : Database}

theorem Database.Serving.ready (serving : db.Serving) (now : Instant) : (db.opened now).Ready :=
  ⟨serving.accepts, serving.sound.recorded⟩

theorem Database.Serving.submit (serving : db.Serving) (now : Instant) (ids : IdSupply) :
    (policy.submit request now ids db).2.Serving := by
  obtain ⟨contents, time, same⟩ := submit_switches policy request now ids db
  constructor
  case available =>
    rw [same]
    exact serving.available
  case accepts =>
    rw [same]
    exact serving.accepts
  case sound =>
    rcases submit_contents policy request now ids db with ⟨outcome, -, committed⟩ | ⟨-, unchanged⟩
    · exact committed.sound serving.sound
    · rw [unchanged]
      exact serving.sound

section Hookless

variable (serving : db.Serving) (hookless : policy.registry.Spares request.operations) (now now' : Instant)
  (ids ids' : IdSupply)

include serving hookless

/-- A batch without hooks ends in the same way on two stores that agree in its partition, and
advances the partition in the same way. -/
theorem submit_facing (serving' : db'.Serving)
    (finds : db'.contents.find? request.partition = db.contents.find? request.partition)
    (counter : db'.contents.counter request.partition = db.contents.counter request.partition) :
    (policy.submit request now' ids' db').1.result = (policy.submit request now ids db).1.result ∧
      ∃ fresh,
        (policy.submit request now ids db).2.contents.part request.partition =
          (db.contents.part request.partition).advance fresh (db.nextTime now) ∧
        (policy.submit request now' ids' db').2.contents.part request.partition =
          (db'.contents.part request.partition).advance fresh (db'.nextTime now') := by
  have facing : View.Facing request.partition .empty (db.opened now) (db'.opened now') :=
    ⟨⟨rfl, rfl⟩, finds.symm, counter.symm, fun _ _ taken => nomatch taken⟩
  have spared : (policy.settingFor request.actor).registry.Spares request.operations := hookless
  rcases run_facing spared facing (serving.ready now) (serving'.ready now') ids ids' with
    ⟨f, s, t, run, run'⟩ | ⟨outcome, s, t, fresh, run, run', here, there, -⟩
  · obtain ⟨result, contents⟩ := submit_of_error serving.available run
    obtain ⟨result', contents'⟩ := submit_of_error serving'.available run'
    rw [result, result', contents, contents']
    refine ⟨rfl, _, Contents.part_unchanged _ _ _, ?_⟩
    rw [← finds, ← counter]
    exact Contents.part_unchanged _ _ _
  · obtain ⟨result, contents⟩ := submit_of_ok serving.available run
    obtain ⟨result', contents'⟩ := submit_of_ok serving'.available run'
    rw [result, result', contents, contents']
    exact ⟨rfl, fresh, here, there⟩

/-- What a batch without hooks does depends on its partition alone. The time only matters to the
dates of the new records. -/
theorem submit_confined (serving' : db'.Serving)
    (agree : (db'.contents.part request.partition).undated =
      (db.contents.part request.partition).undated) :
    (policy.submit request now' ids' db').1.result = (policy.submit request now ids db).1.result ∧
      ((policy.submit request now' ids' db').2.contents.part request.partition).undated =
        ((policy.submit request now ids db).2.contents.part request.partition).undated ∧
      (db'.contents.part request.partition = db.contents.part request.partition →
        db'.nextTime now' = db.nextTime now →
        (policy.submit request now' ids' db').2.contents.part request.partition =
          (policy.submit request now ids db).2.contents.part request.partition) := by
  obtain ⟨finds, counter, -⟩ := Part.undated_eq_iff.mp agree
  obtain ⟨result, fresh, here, there⟩ :=
    submit_facing serving hookless now now' ids ids' serving' finds counter
  refine ⟨result, ?_, fun same time => ?_⟩
  · rw [here, there, Part.undated_advance, Part.undated_advance, agree]
  · rw [here, there, same, time]

/-- A batch without hooks leaves all other partitions as they are. -/
theorem submit_elsewhere {q : Partition} (other : q ≠ request.partition) :
    (policy.submit request now ids db).2.contents.part q = db.contents.part q := by
  have facing : View.Facing request.partition .empty (db.opened now) (db.opened now) :=
    ⟨⟨rfl, rfl⟩, rfl, rfl, fun _ _ taken => nomatch taken⟩
  have ready := serving.ready now
  have spared : (policy.settingFor request.actor).registry.Spares request.operations := hookless
  rcases run_facing spared facing ready ready ids ids with
    ⟨f, s, _, run, -⟩ | ⟨outcome, s, _, _, run, -, -, -, only⟩
  · rw [(submit_of_error serving.available run).2]
  · rw [(submit_of_ok serving.available run).2]
    obtain ⟨changed, records, audit⟩ := run_audit serving.sound.stamped run
    refine audit.part_eq ?_
    by_contra taken
    obtain ⟨r, known⟩ := Option.ne_none_iff_exists'.mp taken
    exact other (only q r known)

/-- A batch without hooks goes the same way whether or not another one came before it in another
partition. -/
theorem submit_after_other (hookless' : policy'.registry.Spares request'.operations)
    (apart : request.partition ≠ request'.partition) (later : Instant) (supply : IdSupply) :
    (policy.submit request later supply (policy'.submit request' now' ids' db).2).1.result =
        (policy.submit request now ids db).1.result ∧
      ((policy.submit request later supply (policy'.submit request' now' ids' db).2).2.contents.part
          request.partition).undated =
        ((policy.submit request now ids db).2.contents.part request.partition).undated := by
  have untouched := submit_elsewhere serving hookless' now' ids' apart
  obtain ⟨result, agree, -⟩ := submit_confined serving hookless now later ids supply
    (serving.submit now' ids') (congrArg Part.undated untouched)
  exact ⟨result, agree⟩

end Hookless

end Submissions

/-- Partitions are isolated. A batch that meets no hooks leaves all other partitions as they are. Its
result, and the concepts, the counter and the log that it leaves in its own partition, depend only
on what was there before and on the time of the transaction, which only the dates of the records
depend on. Two such batches in different partitions can be submitted in either order. -/
theorem partitions_isolated (visits : List Visit) (policy : Policy) (request : BatchRequest)
    (now : Instant) (ids : IdSupply) (hookless : policy.registry.Spares request.operations) :
    (∀ q ≠ request.partition,
      (policy.submit request now ids (Database.after visits)).2.contents.part q =
        (Database.after visits).contents.part q) ∧
    (∀ visits' now' ids',
      ((Database.after visits').contents.part request.partition).undated =
        ((Database.after visits).contents.part request.partition).undated →
      (policy.submit request now' ids' (Database.after visits')).1.result =
        (policy.submit request now ids (Database.after visits)).1.result ∧
      ((policy.submit request now' ids' (Database.after visits')).2.contents.part
          request.partition).undated =
        ((policy.submit request now ids (Database.after visits)).2.contents.part
          request.partition).undated ∧
      ((Database.after visits').contents.part request.partition =
          (Database.after visits).contents.part request.partition →
        (Database.after visits').nextTime now' = (Database.after visits).nextTime now →
        (policy.submit request now' ids' (Database.after visits')).2.contents.part
            request.partition =
          (policy.submit request now ids (Database.after visits)).2.contents.part
            request.partition)) ∧
    ∀ (policy' : Policy) (request' : BatchRequest) (now' later later' : Instant)
      (ids' supply supply' : IdSupply), policy'.registry.Spares request'.operations →
      request'.partition ≠ request.partition →
      (policy'.submit request' later' supply'
          (policy.submit request now ids (Database.after visits)).2).1.result =
        (policy'.submit request' now' ids' (Database.after visits)).1.result ∧
      (policy.submit request later supply
          (policy'.submit request' now' ids' (Database.after visits)).2).1.result =
        (policy.submit request now ids (Database.after visits)).1.result ∧
      ∀ q, ((policy'.submit request' later' supply'
            (policy.submit request now ids (Database.after visits)).2).2.contents.part q).undated =
          ((policy.submit request later supply
            (policy'.submit request' now' ids' (Database.after visits)).2).2.contents.part
              q).undated := by
  have serving := Database.serving_after visits
  refine ⟨fun q other => submit_elsewhere serving hookless now ids other,
    fun visits' now' ids' agree => submit_confined serving hookless now now' ids ids'
      (Database.serving_after visits') agree, ?_⟩
  intro policy' request' now' later later' ids' supply supply' hookless' apart
  obtain ⟨result', part'⟩ :=
    submit_after_other serving hookless' now' now ids' ids hookless apart later' supply'
  obtain ⟨result, part⟩ :=
    submit_after_other serving hookless now now' ids ids' hookless' apart.symm later supply
  refine ⟨result', result, fun q => ?_⟩
  -- a partition is changed by one of the batches at most, and by that one in the same way
  have serving₁ : (policy.submit request now ids (Database.after visits)).2.Serving :=
    serving.submit now ids
  have serving₂ : (policy'.submit request' now' ids' (Database.after visits)).2.Serving :=
    serving.submit now' ids'
  by_cases here : q = request.partition
  · subst here
    rw [submit_elsewhere serving₁ hookless' later' supply' apart.symm, part]
  · by_cases there : q = request'.partition
    · subst there
      rw [submit_elsewhere serving₂ hookless later supply here, part']
    · rw [submit_elsewhere serving₁ hookless' later' supply' there,
        submit_elsewhere serving hookless now ids here,
        submit_elsewhere serving₂ hookless later supply here,
        submit_elsewhere serving hookless' now' ids' there]

/-- The request with which the founder begins an engineering model. Its identifier is in use in the
site directory. -/
def modelRequest : BatchRequest :=
  { foundingRequest with
    partition := .model (.ofNat 2)
    operations := [.create { id := .ofNat 2, conceptType := .engineeringModel } none] }

/-- A site directory can be dissolved before or after a model with its identifier is begun. -/
theorem partitions_isolated_dissolving :
    Registry.standard.Spares (deleting (.ofNat 2) .siteDirectory).operations ∧
    Registry.standard.Spares modelRequest.operations ∧
    modelRequest.partition ≠ (deleting (.ofNat 2) .siteDirectory).partition ∧
    (({} : Policy).submit (deleting (.ofNat 2) .siteDirectory) default ⟨.ofNat, 5⟩
      (Database.after [founding])).1.result.isOk = true ∧
    (({} : Policy).submit modelRequest default ⟨.ofNat, 5⟩
      (Database.after [founding])).1.result.isOk = true ∧
    (({} : Policy).submit (deleting (.ofNat 2) .siteDirectory) default ⟨.ofNat, 5⟩
        (Database.after [founding])).2.contents.part modelRequest.partition =
      (Database.after [founding]).contents.part modelRequest.partition ∧
    (({} : Policy).submit modelRequest default ⟨.ofNat, 5⟩
        (({} : Policy).submit (deleting (.ofNat 2) .siteDirectory) default ⟨.ofNat, 5⟩
          (Database.after [founding])).2).1.result =
      (({} : Policy).submit modelRequest default ⟨.ofNat, 5⟩ (Database.after [founding])).1.result := by
  have spared : Registry.standard.Spares (deleting (.ofNat 2) .siteDirectory).operations := by
    intro operation member
    obtain rfl := List.mem_singleton.mp member
    decide
  have spared' : Registry.standard.Spares modelRequest.operations := by
    intro operation member
    obtain rfl := List.mem_singleton.mp member
    decide
  have apart : modelRequest.partition ≠ (deleting (.ofNat 2) .siteDirectory).partition := by decide
  obtain ⟨elsewhere, -, commutes⟩ :=
    partitions_isolated [founding] {} (deleting (.ofNat 2) .siteDirectory) default ⟨.ofNat, 5⟩ spared
  refine ⟨spared, spared', apart, by decide +kernel, by decide +kernel, elsewhere _ apart, ?_⟩
  exact (commutes {} modelRequest default default default ⟨.ofNat, 5⟩ ⟨.ofNat, 5⟩ ⟨.ofNat, 5⟩ spared'
    apart).1

end Memory

end ConceptLedger
