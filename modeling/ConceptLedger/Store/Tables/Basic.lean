import ConceptLedger.Data.Word
import ConceptLedger.Json.Reader
import ConceptLedger.Json.Writer
import ConceptLedger.Wire.Concept
import ConceptLedger.Wire.Revision

/-!
The relational form of a store: three tables of texts and signed integers, each a map under its
primary key. Concepts and logged states are JSON texts; times are whole milliseconds; revisions
are the signed integers with the same 64 bits.
-/

namespace ConceptLedger.Tables

/-- How JSON values are kept as text. -/
structure TextCodec where
  write : Json → String
  read? : String → Option Json

/-- The codec that keeps JSON on one line. -/
def TextCodec.compact : TextCodec := ⟨Json.compact, Json.read?⟩

/-- A cell of an integer column: a whole number of 64 bits, or something else that got in. -/
inductive IntegerCell where
  | whole (n : Int64)
  | other
deriving DecidableEq, Inhabited

/-- The key of a current concept: the name of its partition and the text of its identifier. -/
structure ConceptKey where
  partition : String
  id : String
deriving DecidableEq

/-- The key of a log entry. -/
structure LogKey where
  partition : String
  conceptId : String
  revision : Int64
deriving DecidableEq

instance : Ord ConceptKey :=
  ⟨compareLex (compareOn ConceptKey.partition) (compareOn ConceptKey.id)⟩

instance : Std.TransOrd ConceptKey :=
  inferInstanceAs
    (Std.TransCmp (compareLex (compareOn ConceptKey.partition) (compareOn ConceptKey.id)))

instance : Std.LawfulEqOrd ConceptKey where
  eq_of_compare {a b} same := by
    obtain ⟨parts, ids⟩ := compareLex_eq_eq.mp same
    have first : a.partition = b.partition := Std.LawfulEqCmp.eq_of_compare parts
    have second : a.id = b.id := Std.LawfulEqCmp.eq_of_compare ids
    cases a
    cases b
    simp_all

instance : Ord LogKey :=
  ⟨compareLex (compareOn LogKey.partition)
    (compareLex (compareOn LogKey.conceptId) (compareOn LogKey.revision))⟩

instance : Std.TransOrd LogKey :=
  inferInstanceAs
    (Std.TransCmp (compareLex (compareOn LogKey.partition)
      (compareLex (compareOn LogKey.conceptId) (compareOn LogKey.revision))))

instance : Std.LawfulEqOrd LogKey where
  eq_of_compare {a b} same := by
    obtain ⟨parts, rest⟩ := compareLex_eq_eq.mp same
    obtain ⟨ids, revisions⟩ := compareLex_eq_eq.mp rest
    have first : a.partition = b.partition := Std.LawfulEqCmp.eq_of_compare parts
    have second : a.conceptId = b.conceptId := Std.LawfulEqCmp.eq_of_compare ids
    have third : a.revision = b.revision := Std.LawfulEqCmp.eq_of_compare revisions
    cases a
    cases b
    simp_all

/-- The other columns of a current concept. -/
structure ConceptRow where
  conceptType : String
  containerId : Option String
  revisionNumber : IntegerCell
  properties : String
  accessOverride : String
deriving DecidableEq, Inhabited

/-- The other columns of a log entry. An entry without a snapshot is a removal. -/
structure LogRow where
  conceptType : String
  snapshot : Option String
  committedAt : Int64
deriving DecidableEq, Inhabited

/-- The three tables. -/
structure Contents where
  concepts : SortedMap ConceptKey ConceptRow := SortedMap.empty
  log : SortedMap LogKey LogRow := SortedMap.empty
  counters : SortedMap String IntegerCell := SortedMap.empty
deriving DecidableEq, Inhabited

/-- A failure of the tables themselves: a broken constraint or a cell of the wrong type. -/
def refusal (message : String) : Failure := .during .persistence "sqlite" message

/-- A row that does not say what it should. -/
def corrupt (table reason : String) : Failure :=
  .during .serialization "decode_row" s!"Corrupt row in {table}: {reason}"

/-- The whole number in a cell. -/
def IntegerCell.get : IntegerCell → Except Failure Int64
  | whole n => .ok n
  | other => .error (refusal "the cell holds no whole number")

/-- Reads JSON text with a reader of the wire format. -/
def parseText {α : Type} (codec : TextCodec) (table : String) (read : Json → Option α)
    (text : String) : Except Failure α :=
  match (codec.read? text).bind read with
  | some a => .ok a
  | none => .error (corrupt table "the text is not of the expected form")

/-- Reads the text of an identifier. -/
def parseId (text : String) : Except Failure ConceptId :=
  match Uuid.read? text with
  | some id => .ok id
  | none => .error (corrupt "concepts" "the text is no identifier")

/-- Reads the name of a type. -/
def parseType (text : String) : Except Failure ConceptType :=
  match ConceptType.ofName? text with
  | some t => .ok t
  | none => .error (corrupt "concepts" (Fault.serialization
      s!"unknown concept type '{text}'").message)

/-- Reads the name of a partition. -/
def parsePartition (text : String) : Except Failure Partition :=
  match Partition.read? text with
  | some p => .ok p
  | none => .error (corrupt "revision_log" (Fault.invalidPartition text).message)

/-- Reads a time in milliseconds. -/
def parseMillis (ms : Int64) : Except Failure Instant :=
  match Instant.ofMillis? ms.toInt with
  | some t => .ok t
  | none => .error (corrupt "revision_log" s!"timestamp {ms.toInt} out of range")

/-- The time of an instant in milliseconds, rounded down. -/
def millisOf (t : Instant) : Int64 := Int64.ofInt t.toMillis

/-- The key of a concept. -/
def keyOf (p : Partition) (id : ConceptId) : ConceptKey := ⟨p.name, id.text⟩

/-- The row of a concept. -/
def encodeConcept (codec : TextCodec) (c : Concept) : ConceptRow where
  conceptType := c.conceptType.name
  containerId := c.container.map (·.text)
  revisionNumber := .whole c.revisionNumber.toInt64
  properties := codec.write (Wire.ofProperties c.properties)
  accessOverride := codec.write (Wire.ofAccessOverride c.accessOverride)

/-- Reads a row: properties and access first, then identifier, type and container. -/
def decodeConcept (codec : TextCodec) (id : String) (row : ConceptRow) :
    Except Failure Concept := do
  let revision ← row.revisionNumber.get
  let properties ← parseText codec "concepts" Wire.properties? row.properties
  let accessOverride ← parseText codec "concepts" Wire.accessOverride? row.accessOverride
  let id ← parseId id
  let conceptType ← parseType row.conceptType
  let container ← row.containerId.mapM parseId
  pure
    { id, conceptType, revisionNumber := revision.toUInt64, container, properties,
      accessOverride }

/-- The key of a record. -/
def logKeyOf (r : RevisionRecord) : LogKey :=
  ⟨r.partition.name, r.conceptId.text, r.revision.toInt64⟩

/-- The row of a record. -/
def encodeRecord (codec : TextCodec) (r : RevisionRecord) : LogRow where
  conceptType := r.conceptType.name
  snapshot := r.state.map fun c => codec.write (Wire.ofConcept c)
  committedAt := millisOf r.committedAt

/-- Reads a log entry: snapshot first, then partition, identifier, type and time. -/
def decodeRecord (codec : TextCodec) (key : LogKey) (row : LogRow) :
    Except Failure RevisionRecord := do
  let state ← row.snapshot.mapM (parseText codec "revision_log" Wire.concept?)
  let p ← parsePartition key.partition
  let conceptId ← parseId key.conceptId
  let conceptType ← parseType row.conceptType
  let committedAt ← parseMillis row.committedAt
  pure
    { partition := p, conceptId, conceptType, revision := key.revision.toUInt64, state,
      committedAt }

namespace Contents

/-- The log entries of a concept by ascending revision. -/
def entriesOf (s : Contents) (p : Partition) (id : ConceptId) : List (LogKey × LogRow) :=
  s.log.toList.filter fun e => e.1.partition = p.name ∧ e.1.conceptId = id.text

/-- Whether a log entry is within a bound. Revisions beyond the signed range bound nothing. -/
def within (bound : AsOf) (e : LogKey × LogRow) : Bool :=
  match bound with
  | .revision n => n.toNat ≥ Word.half || decide (e.1.revision ≤ n.toInt64)
  | .instant t => e.2.committedAt ≤ millisOf t

/-- The newest log entry of a concept among those that pass a test. -/
def latest? (s : Contents) (p : Partition) (id : ConceptId) (keep : LogKey × LogRow → Bool) :
    Option (LogKey × LogRow) := ((s.entriesOf p id).filter keep).getLast?

/-- The greatest logged time. -/
def lastMillis? (s : Contents) : Option Int64 := (s.log.values.map (·.committedAt)).max?

/-- The tables with a concept put in place, new or replaced. -/
def put (s : Contents) (codec : TextCodec) (p : Partition) (c : Concept) : Contents :=
  { s with concepts := s.concepts.insert (keyOf p c.id) (encodeConcept codec c) }

end Contents

end ConceptLedger.Tables
