import ConceptLedger.Store.Tables.View

/-!
The file form of the tables: a first line that names the format, and one JSON value with the rows
of each table. A file that does not start with that line is no store.
-/

namespace ConceptLedger.Tables.Dump

/-- The first line of a file. -/
def heading : String := "ConceptLedger store 1\n"

/-- Writes an integer cell. -/
def ofCell : IntegerCell → Json
  | .whole n => Wire.ofInt64 n
  | .other => .null

/-- Reads an integer cell. -/
def cell? : Json → Option IntegerCell
  | .null => some .other
  | j => (Wire.int64? j).map .whole

/-- Writes a text that may be missing. -/
def ofText (s : Option String) : Json := Wire.ofOption .str s

/-- Reads a text that may be missing. -/
def text? (j : Json) : Option (Option String) := Wire.optional Json.string? (some j)

/-- Writes a row of the concepts. -/
def ofConceptRow (e : ConceptKey × ConceptRow) : Json :=
  .arr [.str e.1.partition, .str e.1.id, .str e.2.conceptType, ofText e.2.containerId,
    ofCell e.2.revisionNumber, .str e.2.properties, .str e.2.accessOverride]

/-- Reads a row of the concepts. -/
def conceptRow? (j : Json) : Option (ConceptKey × ConceptRow) := do
  match ← j.items? with
  | [.str p, .str id, .str type, container, revision, .str properties, .str access] =>
    some (⟨p, id⟩, ⟨type, ← text? container, ← cell? revision, properties, access⟩)
  | _ => none

/-- Writes a row of the log. -/
def ofLogRow (e : LogKey × LogRow) : Json :=
  .arr [.str e.1.partition, .str e.1.conceptId, Wire.ofInt64 e.1.revision, .str e.2.conceptType,
    ofText e.2.snapshot, Wire.ofInt64 e.2.committedAt]

/-- Reads a row of the log. -/
def logRow? (j : Json) : Option (LogKey × LogRow) := do
  match ← j.items? with
  | [.str p, .str id, revision, .str type, snapshot, time] =>
    some (⟨p, id, ← Wire.int64? revision⟩, ⟨type, ← text? snapshot, ← Wire.int64? time⟩)
  | _ => none

/-- Writes a counter. -/
def ofCounter (e : String × IntegerCell) : Json := .arr [.str e.1, ofCell e.2]

/-- Reads a counter. -/
def counter? (j : Json) : Option (String × IntegerCell) := do
  match ← j.items? with
  | [.str p, revision] => some (p, ← cell? revision)
  | _ => none

/-- Writes the tables. -/
def write (s : Contents) : String :=
  heading ++ (Json.arr [Wire.ofList ofConceptRow s.concepts.toList,
    Wire.ofList ofLogRow s.log.toList, Wire.ofList ofCounter s.counters.toList]).compact

/-- Reads the tables. -/
def read? (text : String) : Option Contents :=
  if text.startsWith heading then do
    match ← Json.read? (text.drop heading.length).toString with
    | .arr [concepts, log, counters] =>
      some
        { concepts := SortedMap.ofList (← Wire.list? conceptRow? concepts)
          log := SortedMap.ofList (← Wire.list? logRow? log)
          counters := SortedMap.ofList (← Wire.list? counter? counters) }
    | _ => none
  else none

end ConceptLedger.Tables.Dump
