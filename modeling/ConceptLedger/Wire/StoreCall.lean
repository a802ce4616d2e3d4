import ConceptLedger.Store.Call
import ConceptLedger.Wire.Revision

/-!
The wire format of calls on a store and of what they answer.
-/

namespace ConceptLedger.Wire

/-- The names of the calls. -/
def storeCallNames : List String :=
  ["read", "read_cached", "get", "write", "update", "delete", "current_revision", "allocate",
    "append", "revisions_as_of", "history", "next_revision", "record", "resolve",
    "manager_history"]

/-- Reads a change that is to be logged. -/
def change? (j : Json) : Option Change := do
  some ⟨← required uuid? (j.member? "id"), ← required conceptType? (j.member? "concept_type"),
    ← optional concept? (j.member? "state")⟩

/-- Reads a call, which is named apart from its fields. -/
def storeCall? (name : String) (j : Json) : Option StoreCall := do
  if name = "append" then
    some (.append (← required (list? revisionRecord?) (j.member? "records")))
  else
    let p ← required partition? (j.member? "partition")
    let ids ← optional (list? uuid?) (j.member? "ids")
    let listed := ids.getD []
    let id : Option ConceptId := required uuid? (j.member? "id")
    let c : Option Concept := required concept? (j.member? "concept")
    let bound : Option AsOf := required asOf? (j.member? "as_of")
    match name with
    | "read" => some (.read p (← optional conceptType? (j.member? "type")) ids)
    | "read_cached" => some (.readCached p listed)
    | "get" => some (.find p (← id))
    | "write" => some (.write p (← c))
    | "update" => some (.update p (← c))
    | "delete" => some (.delete p (← id))
    | "current_revision" => some (.currentRevision p)
    | "allocate" => some (.raiseRevision p)
    | "revisions_as_of" => some (.revisionsAsOf p listed (← bound))
    | "history" | "manager_history" => some (.history p (← id))
    | "next_revision" => some (.nextRevision p)
    | "record" =>
      some (.logChanges p (← required word? (j.member? "revision"))
        (← required (list? change?) (j.member? "changed")))
    | "resolve" => some (.statesAsOf p listed (← bound))
    | _ => none

/-- Writes what a call answers. -/
def ofStoreAnswer : StoreAnswer → Json
  | .done => .null
  | .flag value => .bool value
  | .revision number => ofWord number
  | .concept found => ofOption ofConcept found
  | .concepts found => ofList ofConcept found
  | .records found => ofList ofRevisionRecord found
  | .states found => .arr (found.toList.map fun e => .arr [ofUuid e.1, ofConcept e.2])

end ConceptLedger.Wire
