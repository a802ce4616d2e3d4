import ConceptLedger.Store.Tables.Basic

/-!
The store on tables. A view works on a copy of the tables; times are in whole milliseconds and a
transaction for writing is later than everything logged.
-/

namespace ConceptLedger.Tables

/-- The store: its tables and the codec of their texts. -/
structure Database where
  contents : Contents := {}
  codec : TextCodec := .compact

/-- A view of the tables inside a transaction. -/
structure View where
  contents : Contents
  codec : TextCodec
  time : Instant
  writable : Bool

namespace View

/-- Refuses a write on a view for reading. -/
def guardWrite (op : String) : Step View Unit := Step.look fun v =>
  if v.writable then .ok ()
  else .error (.during .persistence op "write attempted on a read-only snapshot")

/-- Changes the tables. -/
def change (f : Contents → Contents) : Step View Unit :=
  Step.modify fun v => { v with contents := f v.contents }

/-- The concept of an identifier. -/
def find (v : View) (p : Partition) (id : ConceptId) : Except Failure (Option Concept) :=
  (v.contents.concepts.find? (keyOf p id)).mapM (decodeConcept v.codec id.text)

/-- The concepts of a partition by ascending identifier, of one type or of any. -/
def list (v : View) (p : Partition) (t : Option ConceptType) : Except Failure (List Concept) :=
  (v.contents.concepts.toList.filter fun e =>
    e.1.partition = p.name && t.all fun t => e.2.conceptType = t.name).mapM
      fun e => decodeConcept v.codec e.1.id e.2

def read (v : View) (p : Partition) (t : Option ConceptType) (ids : Option (List ConceptId)) :
    Except Failure (List Concept) :=
  match ids with
  | some ids =>
    (ids.mapM (v.find p)).map fun found =>
      (found.filterMap id).filter fun c => t.all fun t => c.conceptType = t
  | none => v.list p t

/-- The newest record of each identifier among those that pass a test. -/
def latest (v : View) (p : Partition) (ids : List ConceptId) (keep : LogKey × LogRow → Bool) :
    Except Failure (List RevisionRecord) :=
  (ids.mapM fun id =>
    (v.contents.latest? p id keep).mapM fun e => decodeRecord v.codec e.1 e.2).map
      (·.filterMap id)

def write (p : Partition) (c : Concept) : Step View Bool := do
  guardWrite "write"
  if ← Step.gets fun v => v.contents.concepts.contains (keyOf p c.id) then pure false
  else
    Step.modify fun v => { v with contents := v.contents.put v.codec p c }
    pure true

def update (p : Partition) (c : Concept) : Step View Bool := do
  guardWrite "update"
  if ← Step.gets fun v => v.contents.concepts.contains (keyOf p c.id) then
    Step.modify fun v => { v with contents := v.contents.put v.codec p c }
    pure true
  else pure false

def delete (p : Partition) (id : ConceptId) : Step View Bool := do
  guardWrite "delete"
  let found ← Step.gets fun v => v.contents.concepts.contains (keyOf p id)
  change fun s => { s with concepts := s.concepts.erase (keyOf p id) }
  pure found

/-- The counter of a partition, which starts at zero. -/
def currentRevision (v : View) (p : Partition) : Except Failure UInt64 :=
  match v.contents.counters.find? p.name with
  | some cell => cell.get.map (·.toUInt64)
  | none => .ok 0

/-- The message of a counter that would not grow. -/
def counterMessage : String := "partition revision must increase"

/-- The cell after one increase. Beyond the signed range a counter is no whole number any more,
and then it cannot grow. -/
def increased : Option IntegerCell → Except Failure IntegerCell
  | none => .ok (.whole 1)
  | some (.whole n) => .ok (if n = Int64.maxValue then .other else .whole (n + 1))
  | some .other => .error (refusal counterMessage)

def raiseRevision (p : Partition) : Step View UInt64 := do
  guardWrite "allocate_revision"
  let cell ← Step.look fun v => increased (v.contents.counters.find? p.name)
  change fun s => { s with counters := s.counters.insert p.name cell }
  Step.look fun v => v.currentRevision p

/-- Appends one record, which must be the first with its key. -/
def appendOne (r : RevisionRecord) : Step View Unit := do
  if ← Step.gets fun v => v.contents.log.contains (logKeyOf r) then
    Step.fail { refusal "the log entry exists" with conceptId := some r.conceptId.text }
  else
    Step.modify fun v =>
      { v with contents :=
        { v.contents with log := v.contents.log.insert (logKeyOf r) (encodeRecord v.codec r) } }

def append (records : List RevisionRecord) : Step View Unit := do
  guardWrite "append_revisions"
  Step.forEach appendOne records

instance : ConceptStore View where
  read := read
  readCached v p ids := (v.latest p ids fun _ => true).map (·.filterMap (·.state))
  write := write
  update := update
  delete := delete
  currentRevision := currentRevision
  raiseRevision := raiseRevision
  append := append
  revisionsAsOf v p ids bound := v.latest p ids (Contents.within bound)
  history v p id := (v.contents.entriesOf p id).mapM fun e => decodeRecord v.codec e.1 e.2
  time := View.time
  extent v := v.contents.concepts.size + v.contents.log.size

end View

namespace Database

/-- The time of the next transaction for writing: the clock's, or just after all that is
logged. -/
def nextMillis (db : Database) (now : Instant) : Int64 :=
  match db.contents.lastMillis? with
  | some last => max (millisOf now) (last + 1)
  | none => millisOf now

/-- A view at a time in milliseconds. -/
def viewAt (db : Database) (writable : Bool) (ms : Int64) : Except Failure View :=
  (parseMillis ms).map fun time => ⟨db.contents, db.codec, time, writable⟩

instance : Transactional Database View where
  openWrite now := Step.look fun db => db.viewAt true (db.nextMillis now)
  openRead now := Step.look fun db => db.viewAt false (millisOf now)
  commit db v := { db with contents := v.contents }

/-- Puts a concept in place without logging it. -/
def seed (db : Database) (p : Partition) (c : Concept) : Database :=
  { db with contents := db.contents.put db.codec p c }

end Database

end ConceptLedger.Tables
