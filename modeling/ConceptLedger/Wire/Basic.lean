import ConceptLedger.Data.SortedSet
import ConceptLedger.Data.Word
import ConceptLedger.Instant.Rfc3339
import ConceptLedger.Json.Basic
import ConceptLedger.Uuid

/-!
Reading and writing the plain values of the wire format. A reader answers nothing for a value of
another form. A name may also be written as an object that gives the name the value `null`.
-/

namespace ConceptLedger.Wire

variable {α β : Type}

/-- A field that must be there. -/
def required (read : Json → Option α) (field : Option Json) : Option α := field.bind read

/-- A field that may be absent or `null`. -/
def optional (read : Json → Option α) : Option Json → Option (Option α)
  | none | some .null => some none
  | some value => (read value).map some

/-- A field that has a default when it is absent. -/
def defaulted (read : Json → Option α) (default : α) : Option Json → Option α
  | none => some default
  | some value => read value

/-- Reads an identifier. -/
def uuid? (j : Json) : Option Uuid := j.string?.bind Uuid.read?

/-- Reads an instant. -/
def instant? (j : Json) : Option Instant := j.string?.bind Instant.read?

/-- Reads a whole number from 0 to `2 ^ 64 - 1`. -/
def word? (j : Json) : Option UInt64 := j.int?.bind Word.unsigned?

/-- Reads a whole number from `-2 ^ 63` to `2 ^ 63 - 1`. -/
def int64? (j : Json) : Option Int64 := j.int?.bind Word.signed?

/-- Reads any number as a float. -/
def float? : Json → Option Binary64
  | .float x => some x
  | .int n => Binary64.ofInt? n
  | _ => none

/-- Reads one of a set of names. -/
def named? (ofName? : String → Option α) : Json → Option α
  | .str name => ofName? name
  | .obj [(name, .null)] => ofName? name
  | _ => none

/-- Reads a list. -/
def list? (read : Json → Option α) (j : Json) : Option (List α) := j.items?.bind (·.mapM read)

/-- Reads a set; order and repetition do not matter. -/
def set? [Ord α] [Std.TransOrd α] [Std.LawfulEqOrd α] (read : Json → Option α) (j : Json) :
    Option (SortedSet α) := (list? read j).map SortedSet.ofMembers

/-- Reads an object as a map; of repeated names the last one counts. -/
def map? [Ord α] [Std.TransOrd α] [Std.LawfulEqOrd α] (key : String → Option α)
    (read : Json → Option β) (j : Json) : Option (SortedMap α β) :=
  j.members?.bind fun members =>
    (members.mapM fun m => (key m.1).bind fun k => (read m.2).map (k, ·)).map SortedMap.ofList

/-- Writes an identifier. -/
def ofUuid (u : Uuid) : Json := .str u.text

/-- Writes an instant. -/
def ofInstant (t : Instant) : Json := .str t.text

/-- Writes an unsigned whole number. -/
def ofWord (n : UInt64) : Json := .int n.toNat

/-- Writes a signed whole number. -/
def ofInt64 (n : Int64) : Json := .int n.toInt

/-- Writes a list. -/
def ofList (write : α → Json) (l : List α) : Json := .arr (l.map write)

/-- Writes a set in ascending order. -/
def ofSet [Ord α] (write : α → Json) (s : SortedSet α) : Json := ofList write s.elements

/-- Writes a map as an object in key order. -/
def ofMap [Ord α] (key : α → String) (write : β → Json) (m : SortedMap α β) : Json :=
  .obj (m.toList.map fun e => (key e.1, write e.2))

/-- Writes a value or `null`. -/
def ofOption (write : α → Json) (value : Option α) : Json := Json.orNull (value.map write)

end ConceptLedger.Wire
