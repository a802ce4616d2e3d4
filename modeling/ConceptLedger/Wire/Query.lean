import ConceptLedger.Query
import ConceptLedger.Wire.Revision

/-!
The wire format of queries and of what they answer.
-/

namespace ConceptLedger.Wire

/-- The names of the queries. -/
def queryNames : List String := ["get", "get_deep", "as_of", "history"]

/-- Reads a query, which is named apart from its fields. -/
def query? (name : String) (j : Json) : Option Query := do
  let ids : Option (List ConceptId) := required (list? uuid?) (j.member? "ids")
  let options : Option ReadOptions :=
    (optional readOptions? (j.member? "options")).map (·.getD {})
  match name with
  | "get" => some (.shallow (← ids) (← options))
  | "get_deep" => some (.deep (← ids) (← options))
  | "as_of" => some (.asOf (← ids) (← required asOf? (j.member? "as_of")))
  | "history" => some (.history (← required uuid? (j.member? "id")))
  | _ => none

/-- Writes the answer to a query. -/
def ofQueryAnswer : QueryAnswer → Json
  | .concepts found => ofList ofConcept found
  | .records found => ofList ofRevisionRecord found

end ConceptLedger.Wire
