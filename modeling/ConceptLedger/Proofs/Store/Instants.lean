import ConceptLedger.Proofs.Batch.Recording
import ConceptLedger.Proofs.Instant.Order
import ConceptLedger.Proofs.Store.Discipline

/-!
Reads at an instant. A batch logs all its records at the time of its transaction, which lies after
everything that was logged before, whatever the clock does. So the instants tell the batches of a
history apart, and a read at an instant answers what a live read answered after the last of them
that came before it.
-/

namespace ConceptLedger

section Splitting

variable {δ σ : Type} [ConceptStore σ] [Transactional δ σ]

/-- The records that the step after the first `k` ones adds to the log of a store. -/
def addedRecords (records : δ → List RevisionRecord) (run : Nat → δ) (k : Nat) :
    List RevisionRecord :=
  (records (run (k + 1))).filter fun r => r ∉ records (run k)

/-- What a read at an instant answers is what a live read answered some time before, for every gate,
actor and list of different identifiers, at plain readings of the clock. -/
def RecallsAt (plain : Instant → Prop) (t : Instant) (now before : δ) : Prop :=
  ∀ (policy : Policy) (actor : Actor) (p : Partition) (ids : List ConceptId) (reading reading' : Instant),
    ids.Nodup → plain reading → plain reading' → ∃ found,
      (policy.readAsOf actor p ids (.instant t) reading now).1.result = .ok found ∧
      (policy.readShallow actor p ids {} reading' before).1.result = .ok found

/-- A run of a store, given by what the store is after any number of steps, is split by plain instants
exactly: each step logs at one time, after all before it, and a read at an instant answers what a live
read answered after the last step that logged anything until then, and nothing if there is none. -/
structure SplitByInstants (records : δ → List RevisionRecord) (run : Nat → δ) (n : Nat)
    (plain : Instant → Prop) : Prop where
  kept : ∀ k < n, records (run k) ⊆ records (run (k + 1))
  shared : ∀ k < n, ∀ r ∈ addedRecords records run k, ∀ r' ∈ addedRecords records run k,
    r.committedAt = r'.committedAt
  later : ∀ k < n, ∀ b ∈ records (run k), ∀ r ∈ addedRecords records run k,
    compare b.committedAt r.committedAt = .lt
  recalls : ∀ t, plain t →
    ((∀ r ∈ records (run n), r.committedAt.atMost t = false) ∧
      ∀ (policy : Policy) (actor : Actor) (p : Partition) (ids : List ConceptId) (reading : Instant),
        plain reading →
          (policy.readAsOf actor p ids (.instant t) reading (run n)).1.result = .ok []) ∨
    ∃ k < n, (∃ r ∈ addedRecords records run k, r.committedAt.atMost t = true) ∧
      (∀ j, k < j → j < n → ∀ r ∈ addedRecords records run j, r.committedAt.atMost t = false) ∧
      RecallsAt plain t (run n) (run (k + 1))

/-- What a split run of one visit answers at an instant, if it is anything, it answers live. -/
theorem SplitByInstants.recalls_of_single {records : δ → List RevisionRecord} {run : Nat → δ}
    {plain : Instant → Prop} {policy : Policy} {actor : Actor} {p : Partition}
    {ids : List ConceptId} (split : SplitByInstants records run 1 plain) (t now : Instant)
    (bounded : plain t) (reading : plain now)
    (some : (policy.readAsOf actor p ids (.instant t) now (run 1)).1.result ≠ .ok []) :
    (∃ r ∈ records (run 1), r.committedAt.atMost t = true) ∧ RecallsAt plain t (run 1) (run 1) := by
  rcases split.recalls t bounded with ⟨-, nothing⟩ | ⟨k, below, ⟨r, added, within⟩, -, recalls⟩
  · exact absurd (nothing policy actor p ids now reading) some
  · obtain rfl : k = 0 := by omega
    exact ⟨⟨r, (List.mem_filter.mp added).1, within⟩, recalls⟩

end Splitting

namespace Batch

/-- What a batch that succeeds logs bears the time of its view. -/
theorem run_dated {env : Setting} {p : Partition} {operations : List Operation} {v : Memory.View}
    {ids : IdSupply} {outcome : BatchOutcome} {s : State Memory.View}
    (run : run env p operations { view := v, ids } = (.ok outcome, s)) :
    ∃ records, s.view.contents.log = v.contents.log ++ records ∧
      ∀ r ∈ records, r.committedAt = v.time := by
  obtain ⟨_, s₁, applied, finished⟩ := Step.bind_eq_ok_iff.mp run
  have writes := applyAll_writes applied
  have tracks : Tracks v.contents s₁.draft :=
    (Tracks.start (s := { view := v, ids }) rfl).writes writes
  obtain ⟨records, contents, perm, -⟩ := finish_ok finished
  obtain ⟨changed, view⟩ := writes.view
  have time : s₁.draft.view.time = v.time := by rw [view]; rfl
  refine ⟨records, by rw [contents, ← tracks.log]; rfl, fun r member => ?_⟩
  obtain ⟨x, -, rfl⟩ := List.mem_map.mp (perm.mem_iff.mp member)
  exact time

end Batch

namespace Memory

open Batch

/-- Contents that a batch at a time made of others. -/
structure CommittedAt (time : Instant) (before after : Contents) : Prop where
  committed : ∃ policy request outcome, Committed policy request before after outcome
  records : ∃ records, after.log = before.log ++ records ∧ ∀ r ∈ records, r.committedAt = time

/-- Contents that come after others in a history: they are the same, or a batch made them at a time
after all that was logged. -/
inductive Contents.Follows (before after : Contents) : Prop
  | same (unchanged : after = before)
  | batch {time : Instant} (made : CommittedAt time before after)
    (later : ∀ b ∈ before.log, compare b.committedAt time = .lt)

namespace Contents

variable {s s' : Contents} {p : Partition} {bound : AsOf}

/-- At a bound that includes the whole log a read of the past sees what is stored. -/
theorem stateAsOf_of_all (logged : s.Logged) (all : ∀ r ∈ s.log, bound.includes r = true) :
    s.stateAsOf p bound = s.find? p := by
  funext id
  rw [logged p id, stateAsOf, latest?, latest?]
  congr 2
  exact List.filter_congr fun r member => all r (mem_recordsOf.mp member).1

/-- Records beyond a bound do not change what a read of the past sees there. -/
theorem stateAsOf_of_beyond {records : List RevisionRecord} (log : s'.log = s.log ++ records)
    (beyond : ∀ r ∈ records, bound.includes r = false) :
    s'.stateAsOf p bound = s.stateAsOf p bound := by
  funext id
  have none : (records.filter fun r => r.partition = p ∧ r.conceptId = id).filter bound.includes =
      [] := by
    refine List.filter_eq_nil_iff.mpr fun r member => ?_
    rw [beyond r (List.mem_filter.mp member).1]
    exact Bool.false_ne_true
  rw [stateAsOf, stateAsOf, latest?, latest?, recordsOf, recordsOf, log, List.filter_append,
    List.filter_append, none, List.append_nil]

end Contents

/-- A sequence of contents, from empty ones, of which each follows the one before. -/
structure Timeline (s : Nat → Contents) (n : Nat) : Prop where
  start : s 0 = {}
  follows : ∀ k < n, (s k).Follows (s (k + 1))

namespace Timeline

variable {s : Nat → Contents} {n k : Nat}

theorem before (timeline : Timeline s (n + 1)) : Timeline s n :=
  ⟨timeline.start, fun k below => timeline.follows k (by omega)⟩

theorem concat {after : Contents} (timeline : Timeline s n) (follows : (s n).Follows after) :
    Timeline (fun k => if k ≤ n then s k else after) (n + 1) where
  start := timeline.start
  follows k below := by
    by_cases inside : k < n
    · rw [if_pos (by omega), if_pos (by omega)]
      exact timeline.follows k inside
    · obtain rfl : k = n := by omega
      rw [if_pos (Nat.le_refl k), if_neg (by omega)]
      exact follows

/-- What the empty contents have and every batch keeps holds all along. -/
theorem keeps {P : Contents → Prop} (timeline : Timeline s n) (start : P {})
    (step : ∀ policy request before after outcome, P before →
      Committed policy request before after outcome → P after) : ∀ k ≤ n, P (s k) := by
  intro k within
  induction k with
  | zero => exact timeline.start ▸ start
  | succ k ih =>
    have held := ih (by omega)
    cases timeline.follows k (by omega) with
    | same unchanged => exact unchanged ▸ held
    | batch made =>
      obtain ⟨policy, request, outcome, committed⟩ := made.committed
      exact step policy request _ _ outcome held committed

theorem chronicled (timeline : Timeline s n) : ∀ k ≤ n, (s k).Sound ∧ (s k).Logged := by
  refine timeline.keeps (P := fun s => s.Sound ∧ s.Logged) ⟨Contents.sound_empty, fun _ _ => rfl⟩ ?_
  intro policy request before after outcome ⟨sound, logged⟩ committed
  obtain ⟨changed, records, audit⟩ := committed.audit sound.stamped
  exact ⟨committed.sound sound, audit.logged sound logged⟩

theorem log_subset (timeline : Timeline s n) (below : k < n) : (s k).log ⊆ (s (k + 1)).log := by
  cases timeline.follows k below with
  | same unchanged =>
    rw [unchanged]
    exact List.Subset.refl _
  | batch made =>
    obtain ⟨records, log, -⟩ := made.records
    rw [log]
    exact List.subset_append_left _ _

theorem log_mono (timeline : Timeline s n) {j : Nat} (before : k ≤ j) (within : j ≤ n) :
    (s k).log ⊆ (s j).log := by
  induction before with
  | refl => exact List.Subset.refl _
  | step _ ih => exact List.Subset.trans (ih (by omega)) (timeline.log_subset (by omega))

/-- What a step adds to the log it adds at one time, which lies after all that was logged before. -/
theorem dated (timeline : Timeline s n) (below : k < n) : ∃ time,
    ∀ r ∈ addedRecords Contents.log s k, r.committedAt = time ∧
      ∀ b ∈ (s k).log, compare b.committedAt time = .lt := by
  cases timeline.follows k below with
  | same unchanged =>
    refine ⟨default, fun r member => ?_⟩
    obtain ⟨here, new⟩ := List.mem_filter.mp member
    rw [unchanged] at here
    exact absurd here (of_decide_eq_true new)
  | @batch time made later =>
    obtain ⟨records, log, dates⟩ := made.records
    refine ⟨time, fun r member => ⟨dates r ?_, later⟩⟩
    obtain ⟨here, new⟩ := List.mem_filter.mp member
    rw [log] at here
    exact (List.mem_append.mp here).resolve_left (of_decide_eq_true new)

/-- What the log tells about an instant is what was stored after the last step that logged anything
until then, and nothing if there is none. -/
def Told (s : Nat → Contents) (n : Nat) (t : Instant) : Prop :=
  ((∀ r ∈ (s n).log, r.committedAt.atMost t = false) ∧
    ∀ p, (s n).stateAsOf p (.instant t) = fun _ => none) ∨
  ∃ k < n, (∃ r ∈ addedRecords Contents.log s k, r.committedAt.atMost t = true) ∧
    (∀ r ∈ (s n).log, r.committedAt.atMost t = true → r ∈ (s (k + 1)).log) ∧
    ∀ p, (s n).stateAsOf p (.instant t) = (s (k + 1)).find? p

/-- A step that logs nothing until an instant leaves what is told about it. -/
theorem Told.beyond {t : Instant} {records : List RevisionRecord} (told : Told s n t)
    (log : (s (n + 1)).log = (s n).log ++ records)
    (beyond : ∀ r ∈ records, r.committedAt.atMost t = false) : Told s (n + 1) t := by
  have state : ∀ p, (s (n + 1)).stateAsOf p (.instant t) = (s n).stateAsOf p (.instant t) :=
    fun p => Contents.stateAsOf_of_beyond log beyond
  rcases told with ⟨none, nothing⟩ | ⟨k, below, some, last, told⟩
  · refine .inl ⟨fun r member => ?_, fun p => (state p).trans (nothing p)⟩
    rw [log] at member
    exact (List.mem_append.mp member).elim (none r) (beyond r)
  · refine .inr ⟨k, by omega, some, fun r member within => ?_, fun p => (state p).trans (told p)⟩
    rw [log] at member
    rcases List.mem_append.mp member with old | new
    · exact last r old within
    · rw [beyond r new] at within
      cases within

/-- A step that logs something until an instant is the last one that does. -/
theorem Told.reached {t time : Instant} {r : RevisionRecord} {others : List RevisionRecord}
    (logged : (s (n + 1)).Logged) (log : (s (n + 1)).log = (s n).log ++ r :: others)
    (dates : ∀ b ∈ r :: others, b.committedAt = time)
    (later : ∀ b ∈ (s n).log, compare b.committedAt time = .lt) (reached : time.atMost t = true) :
    Told s (n + 1) t := by
  have all : ∀ b ∈ (s (n + 1)).log, b.committedAt.atMost t = true := by
    intro b member
    rw [log] at member
    rcases List.mem_append.mp member with old | new
    · exact Instant.atMost_of_lt_of_atMost (later b old) reached
    · rw [dates b new]
      exact reached
  have new : r ∉ (s n).log := by
    intro old
    have before := later r old
    rw [dates r List.mem_cons_self, Instant.lt_iff] at before
    omega
  have here : r ∈ (s (n + 1)).log := by
    rw [log]
    exact List.mem_append_right _ List.mem_cons_self
  exact .inr ⟨n, Nat.lt_succ_self n,
    ⟨r, List.mem_filter.mpr ⟨here, decide_eq_true new⟩, all r here⟩, fun b member _ => member,
    fun p => Contents.stateAsOf_of_all logged all⟩

theorem told (timeline : Timeline s n) (t : Instant) : Told s n t := by
  induction n with
  | zero =>
    unfold Told
    rw [timeline.start]
    exact .inl ⟨fun _ none => (nomatch none), fun _ => rfl⟩
  | succ n ih =>
    have earlier := ih timeline.before
    cases timeline.follows n (Nat.lt_succ_self n) with
    | same unchanged =>
      refine Told.beyond earlier (?_ : _ = _ ++ []) fun _ none => (nomatch none)
      rw [unchanged, List.append_nil]
    | @batch time made later =>
      obtain ⟨records, log, dates⟩ := made.records
      by_cases reached : time.atMost t = true
      · cases records with
        | nil => exact earlier.beyond log fun _ none => (nomatch none)
        | cons r others =>
          exact .reached (timeline.chronicled _ (Nat.le_refl _)).2 log dates later reached
      · refine earlier.beyond log fun r member => ?_
        rw [dates r member]
        exact Bool.eq_false_iff.mpr reached

/-- No step after the last one that logged anything until an instant logs anything until then. -/
theorem beyond_of_last (timeline : Timeline s n) {t : Instant}
    (last : ∀ r ∈ (s n).log, r.committedAt.atMost t = true → r ∈ (s (k + 1)).log) :
    ∀ j, k < j → j < n → ∀ r ∈ addedRecords Contents.log s j, r.committedAt.atMost t = false := by
  intro j above below r member
  obtain ⟨here, new⟩ := List.mem_filter.mp member
  by_contra within
  have old := last r (timeline.log_mono (by omega) (Nat.le_refl n) here) (by simpa using within)
  exact of_decide_eq_true new (timeline.log_mono (by omega) (by omega) old)

section Split

variable {δ σ : Type} [ConceptStore σ] [Transactional δ σ] {records : δ → List RevisionRecord}
  {run : Nat → δ} {plain : Instant → Prop}

/-- A store whose log and whose reads are those of a timeline is split by instants. -/
theorem split (timeline : Timeline s n) (log : ∀ k ≤ n, ∀ r, r ∈ records (run k) ↔ r ∈ (s k).log)
    (past : ∀ (policy : Policy) actor p ids t now, plain t → plain now →
      (policy.readAsOf actor p ids (.instant t) now (run n)).1.result =
        .ok (policy.gate.seen actor p ((s n).stateAsOf p (.instant t)) ids))
    (live : ∀ k ≤ n, ∀ (policy : Policy) actor p ids now, ids.Nodup → plain now →
      (policy.readShallow actor p ids {} now (run k)).1.result =
        .ok (policy.gate.seen actor p ((s k).find? p) ids)) :
    SplitByInstants records run n plain := by
  have added : ∀ k < n, ∀ r,
      r ∈ addedRecords records run k ↔ r ∈ addedRecords Contents.log s k := by
    intro k below r
    simp only [addedRecords, List.mem_filter, decide_eq_true_eq, log k (by omega),
      log (k + 1) (by omega)]
  constructor
  case kept =>
    intro k below r member
    exact (log _ below r).mpr (timeline.log_subset below ((log k (by omega) r).mp member))
  case shared =>
    intro k below r member r' member'
    obtain ⟨time, dated⟩ := timeline.dated below
    rw [(dated r ((added k below r).mp member)).1, (dated r' ((added k below r').mp member')).1]
  case later =>
    intro k below b former r member
    obtain ⟨time, dated⟩ := timeline.dated below
    obtain ⟨date, later⟩ := dated r ((added k below r).mp member)
    rw [date]
    exact later b ((log k (by omega) b).mp former)
  case recalls =>
    intro t bound
    rcases timeline.told t with ⟨none, nothing⟩ | ⟨k, below, ⟨r, new, within⟩, last, told⟩
    · refine .inl ⟨fun r member => none r ((log n (Nat.le_refl n) r).mp member), ?_⟩
      intro policy actor p ids now reading
      rw [past policy actor p ids t now bound reading, nothing]
      exact congrArg Except.ok (List.filterMap_none ids)
    · refine .inr ⟨k, below, ⟨r, (added k below r).mpr new, within⟩, fun j above under b member => ?_, ?_⟩
      · exact timeline.beyond_of_last last j above under b ((added j under b).mp member)
      · intro policy actor p ids now now' distinct reading reading'
        refine ⟨_, past policy actor p ids t now bound reading, ?_⟩
        rw [live (k + 1) below policy actor p ids now' distinct reading', told]

end Split

end Timeline

/-- The time of a transaction lies after that of the last one. -/
theorem Database.lt_nextTime {db : Database} {last : Instant} (now : Instant)
    (known : db.lastTime = some last) : compare last (db.nextTime now) = .lt := by
  rw [nextTime, known]
  dsimp only
  split
  · exact last.lt_nextMilli
  · rename_i beyond
    exact Instant.lt_of_not_atMost (by simpa using beyond)

/-- A read leaves the store as opening it for reading does. -/
theorem answer_after (policy : Policy) (actor : Actor) (p : Partition) (query : Query)
    (now : Instant) {db : Database} (available : db.unavailable = false) :
    (policy.answer actor p query now db).2 = { db with lastTime := some (db.nextTime now) } := by
  have opened : Transactional.openRead now db = _ := openView_of_available false now available
  cases query <;> simp only [Policy.answer, Policy.readShallow, Policy.readDeep, Policy.readAsOf,
    Policy.readHistory, Policy.reading, opened]

/-- A batch takes place at the time of its transaction. -/
theorem submit_dated (policy : Policy) (request : BatchRequest) (now : Instant) (ids : IdSupply)
    {db : Database} (available : db.unavailable = false) :
    (policy.submit request now ids db).2.lastTime = some (db.nextTime now) ∧
      ((policy.submit request now ids db).2.contents = db.contents ∨
        CommittedAt (db.nextTime now) db.contents (policy.submit request now ids db).2.contents) := by
  have opened : Transactional.openWrite now db = _ := openView_of_available true now available
  unfold Policy.submit
  rw [opened]
  dsimp only
  split
  · rename_i outcome s run
    refine ⟨rfl, .inr ⟨⟨policy, request, outcome, ⟨_, ids, s, rfl, rfl, run⟩⟩, ?_⟩⟩
    exact Batch.run_dated run
  · exact ⟨rfl, .inl rfl⟩

/-- A store that has opened a transaction at or after every time in its log. -/
def Database.Clocked (db : Database) : Prop :=
  ∀ r ∈ db.contents.log, ∃ last, db.lastTime = some last ∧ r.committedAt.atMost last = true

theorem Database.Clocked.later {db : Database} (clocked : db.Clocked) (now : Instant) :
    ∀ r ∈ db.contents.log, compare r.committedAt (db.nextTime now) = .lt := by
  intro r member
  obtain ⟨last, known, within⟩ := clocked r member
  exact Instant.lt_of_atMost_of_lt within (db.lt_nextTime now known)

/-- A visit is followed by contents that come after those before it. -/
theorem Visit.follows (v : Visit) {db : Database} (available : db.unavailable = false)
    (clocked : db.Clocked) :
    db.contents.Follows (v.after db).contents ∧ (v.after db).Clocked := by
  have passed : ∀ now, ∀ r ∈ db.contents.log, r.committedAt.atMost (db.nextTime now) = true :=
    fun now r member => Instant.atMost_of_lt_of_atMost (clocked.later now r member) (by
      rw [Instant.atMost_iff]
      omega)
  cases v with
  | read policy actor p query now =>
    rw [Visit.after, answer_after policy actor p query now available]
    exact ⟨.same rfl, fun r member => ⟨_, rfl, passed now r member⟩⟩
  | batch policy request now ids =>
    obtain ⟨time, same | made⟩ := submit_dated policy request now ids available
    · refine ⟨.same same, fun r member => ⟨_, time, passed now r ?_⟩⟩
      rwa [Visit.after, same] at member
    · refine ⟨.batch made (clocked.later now), fun r member => ⟨_, time, ?_⟩⟩
      obtain ⟨records, log, dates⟩ := made.records
      rw [Visit.after, log] at member
      rcases List.mem_append.mp member with old | new
      · exact passed now r old
      · rw [dates r new, Instant.atMost_iff]
        omega

theorem clocked_after (visits : List Visit) : (Database.after visits).Clocked := by
  induction visits using List.reverseRecOn with
  | nil => exact fun _ none => nomatch none
  | append_singleton earlier v ih =>
    rw [Database.after_concat]
    exact (v.follows (unavailable_after earlier) ih).2

/-- The contents after the first visits of a history, from none to all. -/
theorem timeline_after (visits : List Visit) :
    Timeline (fun k => (Database.after (visits.take k)).contents) visits.length where
  start := rfl
  follows k below := by
    rw [List.take_succ_eq_append_getElem below, Database.after_concat]
    exact (Visit.follows _ (unavailable_after _) (clocked_after _)).1

/-- After every history of the store in memory, instants split it exactly. -/
theorem split_after (visits : List Visit) :
    SplitByInstants (fun db : Database => db.contents.log)
      (fun k => Database.after (visits.take k)) visits.length fun _ => True := by
  refine (timeline_after visits).split (fun _ _ _ => Iff.rfl) ?_ ?_
  · intro policy actor p ids t now _ _
    rw [List.take_length]
    exact readAsOf_result policy actor p ids (.instant t) now (unavailable_after visits)
  · intro k _ policy actor p ids now distinct _
    exact readShallow_result policy actor p distinct now (unavailable_after _) (sound_after _).keyed

end Memory

end ConceptLedger
