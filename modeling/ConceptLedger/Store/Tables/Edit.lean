import ConceptLedger.Data.Word
import ConceptLedger.Store.Tables.View

/-!
Changes to the rows behind the store's back, under the constraints that the tables themselves
keep: keys are unique, required columns hold a value, log rows are never changed, and counters
neither fall nor are negative. Each change answers the number of rows it changed.
-/

namespace ConceptLedger.Tables

/-- A value to be put into a column: nothing, a whole number, another number, or a text. -/
inductive Value where
  | null
  | integer (n : Int64)
  | real (shown : String)
  | text (s : String)
deriving DecidableEq

namespace Value

/-- What a text column keeps of a value. -/
def asText : Value → Option String
  | null => none
  | integer n => some (toString n.toInt)
  | real shown => some shown
  | text s => some s

/-- The whole number that a text spells, with a sign or without. -/
def spelled? (s : String) : Option Int :=
  match s.toList with
  | '-' :: digits => (Digits.readDecimal? digits).map fun n => -(n : Int)
  | '+' :: digits => (Digits.readDecimal? digits).map fun n => (n : Int)
  | digits => (Digits.readDecimal? digits).map fun n => (n : Int)

/-- What an integer column keeps of a value. -/
def asInteger : Value → Option IntegerCell
  | null => none
  | integer n => some (.whole n)
  | real _ => some .other
  | text s =>
    match spelled? s with
    | some n => some (((Word.signed? n).map .whole).getD .other)
    | none => some .other

end Value

/-- The columns of a current concept that can be overwritten. -/
inductive Column where
  | id
  | conceptType
  | containerId
  | revisionNumber
  | properties
  | accessOverride
deriving DecidableEq

namespace Column

/-- The column of a name. -/
def ofName? : String → Option Column
  | "id" => some id
  | "concept_type" => some conceptType
  | "container_id" => some containerId
  | "revision_number" => some revisionNumber
  | "properties_json" => some properties
  | "access_override_json" => some accessOverride
  | _ => none

end Column

namespace Contents

/-- Takes a value that a required column would keep. -/
def needed {α : Type} : Option α → Except Failure α
  | some a => .ok a
  | none => .error (refusal "a required column holds no value")

/-- A row with another value in a column outside its key. -/
def setColumn (row : ConceptRow) (column : Column) (value : Value) : Except Failure ConceptRow :=
  match column with
  | .id => .ok row
  | .conceptType => (needed value.asText).map fun s => { row with conceptType := s }
  | .containerId => .ok { row with containerId := value.asText }
  | .revisionNumber => (needed value.asInteger).map fun c => { row with revisionNumber := c }
  | .properties => (needed value.asText).map fun s => { row with properties := s }
  | .accessOverride => (needed value.asText).map fun s => { row with accessOverride := s }

/-- Overwrites a column of a current concept. -/
def editConcept (s : Contents) (key : ConceptKey) (column : Column) (value : Value) :
    Except Failure (Nat × Contents) :=
  match s.concepts.find? key with
  | none => .ok (0, s)
  | some row =>
    if column = .id then
      (needed value.asText).bind fun id =>
        let moved : ConceptKey := ⟨key.partition, id⟩
        if moved ≠ key ∧ s.concepts.contains moved then .error (refusal "the key is taken")
        else .ok (1, { s with concepts := (s.concepts.erase key).insert moved row })
    else
      (setColumn row column value).map fun row =>
        (1, { s with concepts := s.concepts.insert key row })

/-- Adds a log row. -/
def addLogRow (s : Contents) (key : LogKey) (row : LogRow) : Except Failure (Nat × Contents) :=
  if s.log.contains key then .error (refusal "the key is taken")
  else .ok (1, { s with log := s.log.insert key row })

/-- Sets a counter, which must not be negative and must grow. -/
def setCounter (s : Contents) (p : String) (revision : Int64) :
    Except Failure (Nat × Contents) :=
  let set := .ok (1, { s with counters := s.counters.insert p (.whole revision) })
  if revision < 0 then .error (refusal "a counter is not negative")
  else
    match s.counters.find? p with
    | none => set
    | some (.whole n) => if revision ≤ n then .error (refusal View.counterMessage) else set
    | some .other => .error (refusal View.counterMessage)

/-- Tries to change or remove all log rows, which fails as soon as there is one. -/
def touchLog (s : Contents) : Except Failure (Nat × Contents) :=
  if s.log.isEmpty then .ok (0, s) else .error (refusal "revision_log is append-only")

end Contents

end ConceptLedger.Tables
