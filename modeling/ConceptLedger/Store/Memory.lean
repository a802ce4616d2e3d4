import ConceptLedger.Address
import ConceptLedger.Data.StableSort
import ConceptLedger.Store.Basic

/-!
The store in memory: a map of concepts, the log as a list and a map of counters. A view works on a
copy of the contents, which replaces them on commit.
-/

namespace ConceptLedger

namespace Memory

/-- The contents of the store. -/
structure Contents where
  concepts : SortedMap Address Concept := SortedMap.empty
  log : List RevisionRecord := []
  counters : SortedMap Partition UInt64 := SortedMap.empty
deriving DecidableEq, Inhabited

namespace Contents

/-- The current concept at an address. -/
def find? (s : Contents) (p : Partition) (id : ConceptId) : Option Concept :=
  s.concepts.find? ⟨p, id⟩

/-- The revision counter of a partition, which starts at zero. -/
def counter (s : Contents) (p : Partition) : UInt64 := (s.counters.find? p).getD 0

/-- The concepts of a partition by ascending identifier. -/
def conceptsIn (s : Contents) (p : Partition) : List Concept :=
  (s.concepts.toList.filter fun e => e.1.partition = p).map (·.2)

/-- The records of a concept in the order in which they were appended. -/
def recordsOf (s : Contents) (p : Partition) (id : ConceptId) : List RevisionRecord :=
  s.log.filter fun r => r.partition = p ∧ r.conceptId = id

/-- The record with the greatest revision, the last one of several. -/
def newest? (records : List RevisionRecord) : Option RevisionRecord :=
  records.foldl (fun best r =>
    match best with
    | some b => if b.revision ≤ r.revision then some r else some b
    | none => some r) none

/-- The newest record of a concept among those that pass a test. -/
def latest? (s : Contents) (p : Partition) (id : ConceptId) (within : RevisionRecord → Bool) :
    Option RevisionRecord :=
  newest? ((s.recordsOf p id).filter within)

/-- Whether the log has an entry for the concept and the revision of a record. -/
def logged (s : Contents) (r : RevisionRecord) : Bool :=
  s.log.any fun q => q.partition = r.partition ∧ q.conceptId = r.conceptId ∧
    q.revision = r.revision

/-- The contents with a concept put in place, new or replaced. -/
def put (s : Contents) (p : Partition) (c : Concept) : Contents :=
  { s with concepts := s.concepts.insert ⟨p, c.id⟩ c }

/-- The contents without the concept at an address. -/
def drop (s : Contents) (p : Partition) (id : ConceptId) : Contents :=
  { s with concepts := s.concepts.erase ⟨p, id⟩ }

/-- The contents with a revision counter set. -/
def count (s : Contents) (p : Partition) (n : UInt64) : Contents :=
  { s with counters := s.counters.insert p n }

/-- The contents with records added to the log. -/
def record (s : Contents) (records : List RevisionRecord) : Contents :=
  { s with log := s.log ++ records }

theorem find?_put (s : Contents) (p q : Partition) (c : Concept) (id : ConceptId) :
    (s.put p c).find? q id = if q = p ∧ id = c.id then some c else s.find? q id := by
  simp only [find?, put, SortedMap.find?_insert, Address.mk.injEq]

theorem find?_drop (s : Contents) (p q : Partition) (id id' : ConceptId) :
    (s.drop p id).find? q id' = if q = p ∧ id' = id then none else s.find? q id' := by
  simp only [find?, drop, SortedMap.find?_erase, Address.mk.injEq]

theorem counter_count (s : Contents) (p q : Partition) (n : UInt64) :
    (s.count p n).counter q = if q = p then n else s.counter q := by
  simp only [counter, count, SortedMap.find?_insert]
  split <;> rfl

end Contents

/-- The store: its contents, the time of the last transaction, and two switches that make it
fail. -/
structure Database where
  contents : Contents := {}
  lastTime : Option Instant := none
  unavailable : Bool := false
  rejectsLog : Bool := false
deriving DecidableEq, Inhabited

/-- A view of the contents inside a transaction. -/
structure View where
  contents : Contents
  time : Instant
  writable : Bool
  rejectsLog : Bool
deriving DecidableEq

namespace View

/-- Refuses a write on a view for reading. -/
def guardWrite (op : String) : Step View Unit := Step.look fun v =>
  if v.writable then .ok ()
  else .error (.during .persistence op "write attempted on a read-only snapshot")

/-- Changes the contents. -/
def change (f : Contents → Contents) : Step View Unit :=
  Step.modify fun v => { v with contents := f v.contents }

/-- The concepts of a type, or all of them. -/
def ofType (t : Option ConceptType) (c : Concept) : Bool := t.all fun t => c.conceptType = t

def read (v : View) (p : Partition) (t : Option ConceptType) (ids : Option (List ConceptId)) :
    List Concept :=
  match ids with
  | some ids => (ids.filterMap (v.contents.find? p)).filter (ofType t)
  | none => (v.contents.conceptsIn p).filter (ofType t)

def write (p : Partition) (c : Concept) : Step View Bool := do
  guardWrite "write"
  if ← Step.gets fun v => (v.contents.find? p c.id).isSome then pure false
  else
    change (·.put p c)
    pure true

def update (p : Partition) (c : Concept) : Step View Bool := do
  guardWrite "update"
  if ← Step.gets fun v => (v.contents.find? p c.id).isSome then
    change (·.put p c)
    pure true
  else pure false

def delete (p : Partition) (id : ConceptId) : Step View Bool := do
  guardWrite "delete"
  let found ← Step.gets fun v => (v.contents.find? p id).isSome
  change (·.drop p id)
  pure found

/-- Counts one revision more, which is beyond the range of a counter at the end of its 64 bits. -/
def raiseRevision (p : Partition) : Step View UInt64 := do
  guardWrite "allocate_revision"
  let counter ← Step.gets fun v => v.contents.counter p
  if counter + 1 = 0 then Step.fail .overflow
  else
    change (·.count p (counter + 1))
    pure (counter + 1)

/-- Appends one record. A concept has at most one record for a revision. -/
def appendOne (r : RevisionRecord) : Step View Unit := do
  if ← Step.gets fun v => v.contents.logged r then
    let repeated :=
      Failure.during .persistence "append_revisions" s!"revision {r.revision} already recorded"
    Step.fail { repeated with conceptId := some r.conceptId.text }
  else change (·.record [r])

def append (records : List RevisionRecord) : Step View Unit := do
  guardWrite "append_revisions"
  if ← Step.gets (·.rejectsLog) then
    Step.fault (.storeUnavailable "revision log rejected the write")
  else Step.forEach appendOne records

instance : ConceptStore View where
  read v p t ids := .ok (v.read p t ids)
  readCached v p ids :=
    .ok (ids.filterMap fun id => (v.contents.latest? p id fun _ => true).bind (·.state))
  write := write
  update := update
  delete := delete
  currentRevision v p := .ok (v.contents.counter p)
  raiseRevision := raiseRevision
  append := append
  revisionsAsOf v p ids bound :=
    .ok (ids.filterMap fun id => v.contents.latest? p id bound.includes)
  history v p id := .ok (sortByKey (·.revision) (v.contents.recordsOf p id))
  time := View.time
  extent v := v.contents.concepts.size + v.contents.log.length

open Step

theorem find?_eq (v : View) (p : Partition) (id : ConceptId) :
    ConceptStore.find? v p id = .ok (v.contents.find? p id) := by
  show Except.ok (List.head? (v.read p none (some [id]))) = _
  cases found : v.contents.find? p id <;> simp [read, ofType, found]

theorem guardWrite_ok {op : String} {v w : View} {u : Unit} (run : guardWrite op v = (.ok u, w)) :
    w = v := (look_eq_ok_iff.mp run).2.symm

theorem write_ok {p : Partition} {c : Concept} {v w : View} (run : write p c v = (.ok true, w)) :
    v.contents.find? p c.id = none ∧ w = { v with contents := v.contents.put p c } := by
  obtain ⟨_, _, guarded, rest⟩ := bind_eq_ok_iff.mp run
  cases guardWrite_ok guarded
  obtain ⟨_, _, asked, rest⟩ := bind_eq_ok_iff.mp rest
  obtain ⟨rfl, rfl⟩ := gets_eq_ok_iff.mp asked
  split at rest
  · exact absurd (pure_eq_ok_iff.mp rest).1 Bool.false_ne_true
  · rename_i absent
    obtain ⟨_, _, changed, rest⟩ := bind_eq_ok_iff.mp rest
    obtain ⟨-, rfl⟩ := pure_eq_ok_iff.mp rest
    exact ⟨by simpa using absent, (modify_eq_ok_iff.mp changed).symm⟩

theorem update_ok {p : Partition} {c : Concept} {v w : View} (run : update p c v = (.ok true, w)) :
    (v.contents.find? p c.id).isSome ∧ w = { v with contents := v.contents.put p c } := by
  obtain ⟨_, _, guarded, rest⟩ := bind_eq_ok_iff.mp run
  cases guardWrite_ok guarded
  obtain ⟨_, _, asked, rest⟩ := bind_eq_ok_iff.mp rest
  obtain ⟨rfl, rfl⟩ := gets_eq_ok_iff.mp asked
  split at rest
  · rename_i present
    obtain ⟨_, _, changed, rest⟩ := bind_eq_ok_iff.mp rest
    obtain ⟨-, rfl⟩ := pure_eq_ok_iff.mp rest
    exact ⟨present, (modify_eq_ok_iff.mp changed).symm⟩
  · exact absurd (pure_eq_ok_iff.mp rest).1 Bool.false_ne_true

theorem delete_ok {p : Partition} {id : ConceptId} {v w : View}
    (run : delete p id v = (.ok true, w)) :
    (v.contents.find? p id).isSome ∧ w = { v with contents := v.contents.drop p id } := by
  obtain ⟨_, _, guarded, rest⟩ := bind_eq_ok_iff.mp run
  cases guardWrite_ok guarded
  obtain ⟨_, _, asked, rest⟩ := bind_eq_ok_iff.mp rest
  obtain ⟨rfl, rfl⟩ := gets_eq_ok_iff.mp asked
  obtain ⟨_, _, changed, rest⟩ := bind_eq_ok_iff.mp rest
  obtain ⟨present, rfl⟩ := pure_eq_ok_iff.mp rest
  exact ⟨present, (modify_eq_ok_iff.mp changed).symm⟩

theorem raiseRevision_ok {p : Partition} {r : UInt64} {v w : View}
    (run : raiseRevision p v = (.ok r, w)) :
    r = v.contents.counter p + 1 ∧ r ≠ 0 ∧ w = { v with contents := v.contents.count p r } := by
  obtain ⟨_, _, guarded, rest⟩ := bind_eq_ok_iff.mp run
  cases guardWrite_ok guarded
  obtain ⟨_, _, asked, rest⟩ := bind_eq_ok_iff.mp rest
  obtain ⟨rfl, rfl⟩ := gets_eq_ok_iff.mp asked
  split at rest
  · exact absurd rest fail_ne_ok
  · rename_i room
    obtain ⟨_, _, changed, rest⟩ := bind_eq_ok_iff.mp rest
    obtain ⟨rfl, rfl⟩ := pure_eq_ok_iff.mp rest
    exact ⟨rfl, room, (modify_eq_ok_iff.mp changed).symm⟩

theorem appendOne_ok {r : RevisionRecord} {v w : View} {u : Unit}
    (run : appendOne r v = (.ok u, w)) :
    v.contents.logged r = false ∧ w = { v with contents := v.contents.record [r] } := by
  obtain ⟨_, _, asked, rest⟩ := bind_eq_ok_iff.mp run
  obtain ⟨rfl, rfl⟩ := gets_eq_ok_iff.mp asked
  split at rest
  · exact absurd rest fail_ne_ok
  · rename_i fresh
    exact ⟨by simpa using fresh, (modify_eq_ok_iff.mp rest).symm⟩

theorem appendEach_ok {records : List RevisionRecord} {v w : View} {u : Unit}
    (run : forEach appendOne records v = (.ok u, w)) :
    w = { v with contents := v.contents.record records } := by
  induction records generalizing v with
  | nil =>
    obtain ⟨-, rfl⟩ := pure_eq_ok_iff.mp run
    simp [Contents.record]
  | cons r later ih =>
    obtain ⟨_, middle, first, rest⟩ := bind_eq_ok_iff.mp run
    obtain ⟨-, rfl⟩ := appendOne_ok first
    rw [ih rest]
    simp [Contents.record]

theorem append_ok {records : List RevisionRecord} {v w : View} {u : Unit}
    (run : append records v = (.ok u, w)) :
    w = { v with contents := v.contents.record records } := by
  obtain ⟨_, _, guarded, rest⟩ := bind_eq_ok_iff.mp run
  cases guardWrite_ok guarded
  obtain ⟨_, _, asked, rest⟩ := bind_eq_ok_iff.mp rest
  obtain ⟨rfl, rfl⟩ := gets_eq_ok_iff.mp asked
  split at rest
  · exact absurd rest fault_ne_ok
  · exact appendEach_ok rest

end View

namespace Database

/-- The time of the next transaction: the clock's, or just after the last one. -/
def nextTime (db : Database) (now : Instant) : Instant :=
  match db.lastTime with
  | some last => if now.atMost last then last.nextMilli else now
  | none => now

/-- Opens a view on a copy of the contents. -/
def openView (writable : Bool) (now : Instant) : Step Database View := fun db =>
  if db.unavailable then (fail (.storeUnavailable "memory store marked unavailable"), db)
  else
    let time := db.nextTime now
    (.ok ⟨db.contents, time, writable, db.rejectsLog⟩, { db with lastTime := some time })

instance : Transactional Database View where
  openWrite := openView true
  openRead := openView false
  commit db v := { db with contents := v.contents }

/-- Puts a concept in place without logging it. -/
def seed (db : Database) (p : Partition) (c : Concept) : Database :=
  { db with contents := db.contents.put p c }

end Database

end Memory

end ConceptLedger
