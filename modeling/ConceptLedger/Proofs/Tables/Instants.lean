import ConceptLedger.Proofs.Data.Int64
import ConceptLedger.Proofs.Instant.Rfc3339
import ConceptLedger.Proofs.Store.Instants
import ConceptLedger.Proofs.Tables.Agreement

/-!
Reads of tables at an instant. Tables that mirror a store in memory are followed by it from visit to
visit: at the times at which batches take place on the tables, which lie after everything logged, it
takes what takes effect on them. So instants split the history of tables as they split that of a
store in memory, down to instants between two milliseconds.
-/

namespace ConceptLedger

open Memory (Visit)

/-- Whether all that a visit brings to a store can be kept as text. -/
def Memory.Visit.Textual : Visit → Prop
  | .batch policy request _ _ =>
    Hook.Steady Instant.Legible (fun _ => True) policy.registry.invoke ∧
      ∀ operation ∈ request.operations, operation.Timely Instant.Legible
  | .read _ _ _ _ _ => True

theorem Instant.Whole.legible {t : Instant} (whole : t.Whole) : t.Legible := by
  obtain ⟨range, k, small, nanos⟩ := whole.parts
  exact read?_text range (.inl (by omega))

/-- Whole milliseconds are ordered as their numbers are. -/
theorem Instant.Whole.lt_of_toMillis_lt {a b : Instant} (left : a.Whole) (right : b.Whole)
    (before : a.toMillis < b.toMillis) : compare a b = .lt := by
  obtain ⟨-, j, small, nanos⟩ := left.parts
  obtain ⟨-, k, small', nanos'⟩ := right.parts
  rw [toMillis, toMillis, nanos, nanos'] at before
  rw [lt_iff, nanos, nanos']
  omega

namespace Tables

namespace Database

/-- The store after a visit. -/
def visited (t : Database) : Visit → Database
  | .batch policy request now ids => (policy.submit request now ids t).2
  | .read policy actor p query now => (policy.answer actor p query now t).2

/-- The store after visits in order, which is empty before the first of them. -/
def after (codec : TextCodec) (visits : List Visit) : Database := visits.foldl visited { codec }

/-- The records that can be read from the log table. -/
def records (t : Database) : List RevisionRecord :=
  t.contents.log.toList.filterMap fun e => (decodeRecord t.codec e.1 e.2).toOption

theorem after_concat (codec : TextCodec) (visits : List Visit) (v : Visit) :
    after codec (visits ++ [v]) = (after codec visits).visited v := by
  simp [after]

/-- A read leaves the tables as they are. -/
theorem answer_unchanged (policy : Policy) (actor : Actor) (p : Partition) (query : Query)
    (now : Instant) (t : Database) : (policy.answer actor p query now t).2 = t := by
  have opened : (Transactional.openRead now t).2 = t := rfl
  have reading : ∀ {α : Type} (op : String) (options : ReadOptions) (body : Reader View → ReadStep α),
      (policy.reading op actor p options now body t).2 = t := by
    intro α op options body
    unfold Policy.reading
    split
    · rename_i f t' failed
      rw [failed] at opened
      exact opened
    · rename_i v t' succeeded
      rw [succeeded] at opened
      exact opened
  cases query with
  | shallow ids options => exact reading "get_shallow" options fun r => r.shallow ids none
  | deep ids options => exact reading "get_deep" options fun r => r.deep ids none
  | asOf ids bound => exact reading "resolve_as_of" {} fun r => Step.lift (r.asOf ids bound)
  | history id => exact reading "history" {} fun r => Step.lift (r.history id)

end Database

section Times

variable {m : Memory.Database} {t : Database} {now : Instant} {time : Instant}

theorem Mirrored.mem_log (mirrored : Mirrored m t) {e : LogKey × LogRow} :
    e ∈ t.contents.log.toList ↔ ∃ r ∈ m.contents.log, entryOf t.codec r = e :=
  (log_perm mirrored.mirrors mirrored.fits).mem_iff.trans List.mem_map

/-- What can be read from the log table is what is logged in memory. -/
theorem Mirrored.mem_records (mirrored : Mirrored m t) {r : RevisionRecord} :
    r ∈ t.records ↔ r ∈ m.contents.log := by
  have read : ∀ r ∈ m.contents.log,
      decodeRecord t.codec (entryOf t.codec r).1 (entryOf t.codec r).2 = .ok r :=
    fun r logged => decodeRecord_encodeRecord mirrored.exact (mirrored.fits.storable r logged)
  unfold Database.records
  rw [List.mem_filterMap]
  constructor
  · rintro ⟨e, member, found⟩
    obtain ⟨r', logged, rfl⟩ := mirrored.mem_log.mp member
    rw [read r' logged] at found
    cases found
    exact logged
  · intro logged
    exact ⟨_, mirrored.mem_log.mpr ⟨r, logged, rfl⟩, by rw [read r logged]; rfl⟩

/-- The greatest logged time is that of a record, and no record has a later one. -/
theorem Mirrored.last_logged (mirrored : Mirrored m t) {last : Int64}
    (greatest : t.contents.lastMillis? = some last) :
    (∃ r ∈ m.contents.log, r.committedAt.toMillis = last.toInt) ∧
      ∀ r ∈ m.contents.log, r.committedAt.toMillis ≤ last.toInt := by
  obtain ⟨member, bound⟩ := List.max?_eq_some_iff.mp greatest
  have millis : ∀ r ∈ m.contents.log, (millisOf r.committedAt).toInt = r.committedAt.toMillis :=
    fun r logged => toInt_millisOf (mirrored.fits.storable r logged).time
  constructor
  · obtain ⟨row, inside, rfl⟩ := List.mem_map.mp member
    obtain ⟨e, entry, rfl⟩ := List.mem_map.mp inside
    obtain ⟨r, logged, rfl⟩ := mirrored.mem_log.mp entry
    exact ⟨r, logged, (millis r logged).symm⟩
  · intro r logged
    have entry := mirrored.mem_log.mpr ⟨r, logged, rfl⟩
    have below := bound _ (List.mem_map_of_mem (List.mem_map_of_mem entry))
    rw [← millis r logged]
    exact Int64.le_iff_toInt_le.mp below

/-- A transaction for writing takes place after everything logged, whatever the clock reads. -/
theorem Mirrored.lt_start (mirrored : Mirrored m t)
    (start : parseMillis (t.nextMillis now) = .ok time) :
    ∀ b ∈ m.contents.log, compare b.committedAt time = .lt := by
  intro b logged
  have own := mirrored.fits.storable b logged
  refine own.time.lt_of_toMillis_lt (whole_of_parseMillis start) ?_
  rw [(toMillis_of_parseMillis start).2]
  unfold Database.nextMillis
  cases greatest : t.contents.lastMillis? with
  | none =>
    have entry := mirrored.mem_log.mpr ⟨b, logged, rfl⟩
    have empty := List.max?_eq_none_iff.mp greatest
    exact absurd (List.mem_map_of_mem (List.mem_map_of_mem entry)) (empty ▸ List.not_mem_nil)
  | some last =>
    obtain ⟨⟨r, record, same⟩, bound⟩ := mirrored.last_logged greatest
    have bounds := toMillis_bounds (mirrored.fits.storable r record).time.parts.1
    have next : (last + 1).toInt = last.toInt + 1 := by
      have one : (1 : Int64).toInt = 1 := rfl
      rw [Int64.toInt_add, one, Int.bmod_def]
      split <;> omega
    have floor : last + 1 ≤ max (millisOf now) (last + 1) := Std.right_le_max
    have floor := Int64.le_iff_toInt_le.mp floor
    have below := bound b logged
    dsimp only
    omega

/-- A store in memory that goes by the time of a transaction on tables. -/
theorem SameTime.of_start {writing : Bool} (m : Memory.Database)
    (start : parseMillis (t.startMillis writing now) = .ok time) :
    SameTime writing time now { m with lastTime := none } t :=
  ⟨start, (whole_of_parseMillis start).legible⟩

/-- At a plain reading of the clock tables can be read. -/
theorem start_of_plain {bound : Instant} (plain : (AsOf.instant bound).Plain) :
    ∃ time, parseMillis (millisOf bound) = .ok time := by
  obtain ⟨range, small⟩ := plain
  have seconds : bound.toMillis / 1000 = bound.seconds := by
    rw [Instant.toMillis]
    omega
  have read : ∃ time, Instant.ofMillis? bound.toMillis = some time := by
    refine ⟨⟨bound.seconds, (bound.toMillis % 1000).toNat * 1000000, by omega⟩, ?_⟩
    simp only [Instant.ofMillis?, seconds]
    exact if_pos range
  obtain ⟨time, read⟩ := read
  exact ⟨time, by simp [parseMillis, toInt_millisOf_of_inRange range, read]⟩

end Times

section Following

variable {m : Memory.Database} {t : Database}

/-- A store in memory with the contents of tables, whose counters are in the signed range. -/
structure Followed (m : Memory.Database) (t : Database) : Prop where
  mirrored : Mirrored m t
  ranged : ∀ p, (m.contents.counter p).toNat < Word.half

/-- A visit to tables can be followed by the store in memory. -/
theorem Followed.visited (followed : Followed m t) {v : Visit} (textual : v.Textual) :
    ∃ m', Followed m' (t.visited v) ∧ m.contents.Follows m'.contents := by
  cases v with
  | read policy actor p query now =>
    rw [Database.visited, Database.answer_unchanged]
    exact ⟨m, followed, .same rfl⟩
  | batch policy request now ids =>
    obtain ⟨steady, legible⟩ := textual
    rw [Database.visited]
    cases start : parseMillis (t.nextMillis now) with
    | error f =>
      have closed : Transactional.openWrite now t = (.error f, t) := by
        show (t.viewAt true (t.nextMillis now), t) = _
        rw [Database.viewAt, start]
        rfl
      have unchanged : (policy.submit request now ids t).2 = t := by
        unfold Policy.submit
        rw [closed]
      rw [unchanged]
      exact ⟨m, followed, .same rfl⟩
    | ok time =>
      have mirrored := followed.mirrored.later none
      have outcome : (policy.submit request now ids t).2 = t ∨ _ :=
        mirrored.submit_followed (.of_start m start) steady legible followed.ranged
      rcases outcome with unchanged | ⟨after, ranged⟩
      · rw [unchanged]
        exact ⟨m, followed, .same rfl⟩
      · refine ⟨_, ⟨after, ranged⟩, ?_⟩
        obtain ⟨-, same | made⟩ :=
          Memory.submit_dated policy request time ids mirrored.available
        · exact .same same
        · exact .batch made (followed.mirrored.lt_start start)

/-- The history of tables is a timeline, whose contents the tables have after each visit. -/
theorem timeline_after {codec : TextCodec} (exact_ : codec.Exact) {visits : List Visit}
    (textual : ∀ v ∈ visits, v.Textual) :
    ∃ s, Memory.Timeline s visits.length ∧ ∀ k ≤ visits.length, ∃ m,
      Followed m (Database.after codec (visits.take k)) ∧ m.contents = s k := by
  induction visits using List.reverseRecOn with
  | nil =>
    refine ⟨fun _ => {}, ⟨rfl, fun k below => absurd below (Nat.not_lt_zero k)⟩, fun k _ => ?_⟩
    rw [List.take_nil]
    have zero : (0 : UInt64).toNat < Word.half := by decide
    exact ⟨{}, ⟨mirrored_empty exact_, fun _ => zero⟩, rfl⟩
  | append_singleton earlier v ih =>
    obtain ⟨s, timeline, followed⟩ := ih fun v member => textual v (List.mem_append_left _ member)
    obtain ⟨m, last, same⟩ := followed earlier.length (Nat.le_refl _)
    rw [List.take_length] at last
    obtain ⟨m', next, follows⟩ := last.visited (textual v (by simp))
    have front : ∀ k ≤ earlier.length, (earlier ++ [v]).take k = earlier.take k :=
      fun k within => List.take_append_of_le_length within
    rw [List.length_append, List.length_singleton]
    refine ⟨_, timeline.concat (same ▸ follows), fun k within => ?_⟩
    by_cases inside : k ≤ earlier.length
    · rw [if_pos inside, front k inside]
      exact followed k inside
    · obtain rfl : k = earlier.length + 1 := by omega
      rw [if_neg inside, List.take_of_length_le (by simp), Database.after_concat]
      exact ⟨m', next, rfl⟩

end Following

section Answers

variable {m : Memory.Database} {t : Database} (mirrored : Mirrored m t) (policy : Policy)
  (actor : Actor) (p : Partition) {ids : List ConceptId} {now : Instant}
  (plain : (AsOf.instant now).Plain)

include mirrored plain

theorem Mirrored.readAsOf_result {bound : AsOf} (bounded : bound.Plain) :
    (policy.readAsOf actor p ids bound now t).1.result =
      .ok (policy.gate.seen actor p (m.contents.stateAsOf p bound) ids) := by
  obtain ⟨time, start⟩ := start_of_plain plain
  have alike := ((mirrored.later none).reading_same (SameTime.of_start m start) policy actor p
    "resolve_as_of" {} (fun _ _ r => Step.lift (r.asOf ids bound))
    fun r _ same => congrArg Step.lift (r.asOf_onto same ids bounded)).1
  have answered := Memory.readAsOf_result policy actor p ids bound time
    (mirrored.later none).available
  exact (congrArg Reading.result alike).symm.trans answered

theorem Mirrored.readShallow_result (distinct : ids.Nodup) :
    (policy.readShallow actor p ids {} now t).1.result =
      .ok (policy.gate.seen actor p (m.contents.find? p) ids) := by
  obtain ⟨time, start⟩ := start_of_plain plain
  have alike := ((mirrored.later none).reading_same (SameTime.of_start m start) policy actor p
    "get_shallow" {} (fun _ _ r => r.shallow ids none)
    fun r _ same => r.shallow_onto same ids none).1
  have answered := Memory.readShallow_result policy actor p distinct time
    (mirrored.later none).available mirrored.fits.keyed
  exact (congrArg Reading.result alike).symm.trans answered

end Answers

/-- After every history of tables whose codec loses nothing, plain instants split it exactly. -/
theorem split_after {codec : TextCodec} (exact_ : codec.Exact) {visits : List Visit}
    (textual : ∀ v ∈ visits, v.Textual) :
    SplitByInstants Database.records (fun k => Database.after codec (visits.take k)) visits.length
      fun t => (AsOf.instant t).Plain := by
  obtain ⟨s, timeline, followed⟩ := timeline_after exact_ textual
  refine timeline.split ?_ ?_ ?_
  · intro k within r
    obtain ⟨m, here, same⟩ := followed k within
    rw [here.mirrored.mem_records, same]
  · intro policy actor p ids t now bounded plain
    obtain ⟨m, here, same⟩ := followed visits.length (Nat.le_refl _)
    rw [here.mirrored.readAsOf_result policy actor p plain bounded, same]
  · intro k within policy actor p ids now distinct plain
    obtain ⟨m, here, same⟩ := followed k within
    rw [here.mirrored.readShallow_result policy actor p plain distinct, same]

end Tables

/-- After every history of either store, whatever its clock read, instants split it exactly: each
batch logs at one time, after all before it, and a read at an instant answers what a live read
answered after the last batch that logged anything until then, and nothing if there is none. On
tables this holds for plain instants, as long as all that the visits bring can be kept as text. -/
theorem instants_split (visits : List Visit) :
    SplitByInstants (fun db : Memory.Database => db.contents.log)
        (fun k => Memory.Database.after (visits.take k)) visits.length (fun _ => True) ∧
      ∀ codec : Tables.TextCodec, codec.Exact → (∀ v ∈ visits, v.Textual) →
        SplitByInstants Tables.Database.records
          (fun k => Tables.Database.after codec (visits.take k)) visits.length
          fun t => (AsOf.instant t).Plain :=
  ⟨Memory.split_after visits, fun _ exact_ textual => Tables.split_after exact_ textual⟩

namespace Tables

/-- A site directory is founded, and deleted after the clock has gone back. -/
def backwards : List Visit :=
  [.batch {} Memory.foundingRequest (second 2) ⟨.ofNat, 3⟩,
    .batch {} { Memory.foundingRequest with operations := [.delete (.ofNat 2) .siteDirectory] }
      (second 1) ⟨.ofNat, 3⟩]

theorem backwards_textual : ∀ v ∈ backwards, v.Textual := by
  intro v member
  have standard : Hook.Steady Instant.Legible (fun _ => True) ({} : Policy).registry.invoke :=
    Registry.standard_steady (fun _ _ => trivial) trivial
  rcases List.mem_cons.mp member with rfl | member
  · refine ⟨standard, fun operation inside => ?_⟩
    cases List.mem_singleton.mp inside
    exact fun _ _ found => nomatch found
  · cases List.mem_singleton.mp member
    refine ⟨standard, fun operation inside => ?_⟩
    cases List.mem_singleton.mp inside
    trivial

/-- The batch that comes while the clock reads less than before is logged a millisecond later. -/
theorem instants_split_backwards :
    (Memory.Database.after backwards).contents.log.map (·.committedAt) =
        [second 2, (second 2).nextMilli] ∧
      SplitByInstants (fun db : Memory.Database => db.contents.log)
        (fun k => Memory.Database.after (backwards.take k)) backwards.length (fun _ => True) ∧
      SplitByInstants Database.records
        (fun k => Database.after .lossless (backwards.take k)) backwards.length
        fun t => (AsOf.instant t).Plain :=
  ⟨by decide +kernel, (instants_split backwards).1,
    (instants_split backwards).2 .lossless TextCodec.lossless_exact backwards_textual⟩

section Inexact

/-- A number whose shortest text is read as the next number. -/
def faint : Binary64 := ⟨false, 0x39b4484bfeebc29f, by decide⟩

/-- The founding of a site directory with a faint mass. -/
def faintFounding : Visit :=
  .batch {} { Memory.foundingRequest with
    operations := [.create { id := .ofNat 2, conceptType := .siteDirectory,
                             properties := SortedMap.ofList [("mass", .float faint)] } none] }
    (second 1) ⟨.ofNat, 3⟩

/-- An instant in the first second of 2017, which a leap second came before. -/
def afterLeap : Instant := ⟨1483228800, 200000000, by decide⟩

/-- An instant in that leap second. -/
def inLeap : Instant := ⟨1483228799, 1500000000, by decide⟩

/-- The founding of a site directory just after a leap second. -/
def leapFounding : Visit := .batch {} Memory.foundingRequest afterLeap ⟨.ofNat, 3⟩

/-- What is read of a site directory live. -/
def liveDirectory (t : Database) : Except Failure (List Concept) :=
  (({} : Policy).readShallow Memory.foundingRequest.actor .siteDirectory [.ofNat 2] {} (second 2)
    t).1.result

/-- What is read of a site directory at an instant. -/
def directoryAt (bound : Instant) (t : Database) : Except Failure (List Concept) :=
  (({} : Policy).readAsOf Memory.foundingRequest.actor .siteDirectory [.ofNat 2] (.instant bound)
    (second 2) t).1.result

/-- The masses of concepts. -/
def massesOf (answer : Except Failure (List Concept)) : Option (List (Option PropertyValue)) :=
  answer.toOption.map (·.map fun c => c.properties.find? "mass")

theorem ne_nothing {answer : Except Failure (List Concept)} (masses : massesOf answer ≠ some []) :
    answer ≠ .ok [] := by
  rintro rfl
  exact masses rfl

theorem faint_differs :
    massesOf (directoryAt (second 1) (.after .compact [faintFounding])) ≠ some [] ∧
      massesOf (directoryAt (second 1) (.after .compact [faintFounding])) ≠
        massesOf (liveDirectory (.after .compact [faintFounding])) := by
  decide +kernel

theorem leap_differs :
    massesOf (directoryAt inLeap (.after .compact [leapFounding])) ≠ some [] ∧
      ∀ r ∈ (Database.after .compact [leapFounding]).records,
        r.committedAt.atMost inLeap = false := by
  decide +kernel

/-- The codec that keeps JSON on one line loses the split: a faint number is logged as another than
the one that is stored. And an instant in a leap second is compared with the log as if it came after
that. -/
theorem instants_split_fails :
    ¬ SplitByInstants Database.records (fun k => Database.after .compact ([faintFounding].take k)) 1
        (fun t => (AsOf.instant t).Plain) ∧
      ¬ SplitByInstants Database.records (fun k => Database.after .compact ([leapFounding].take k)) 1
        fun _ => True := by
  constructor
  · intro split
    obtain ⟨some, differ⟩ := faint_differs
    have plain : (AsOf.instant (second 1)).Plain ∧ (AsOf.instant (second 2)).Plain := by
      unfold AsOf.Plain
      decide
    have recalls : RecallsAt _ (second 1) (Database.after .compact [faintFounding])
        (Database.after .compact [faintFounding]) :=
      (split.recalls_of_single _ _ plain.1 plain.2 (ne_nothing some)).2
    obtain ⟨found, past, live⟩ := recalls {} Memory.foundingRequest.actor .siteDirectory [.ofNat 2]
      (second 2) (second 2) (List.nodup_singleton _) plain.2 plain.2
    have past : directoryAt (second 1) (.after .compact [faintFounding]) = .ok found := past
    have live : liveDirectory (.after .compact [faintFounding]) = .ok found := live
    rw [past, live] at differ
    exact differ rfl
  · intro split
    obtain ⟨some, beyond⟩ := leap_differs
    obtain ⟨⟨r, logged, within⟩, -⟩ :=
      split.recalls_of_single inLeap (second 2) trivial trivial (ne_nothing some)
    rw [beyond r logged] at within
    cases within

end Inexact

end Tables

end ConceptLedger
