import ConceptLedger.Concept.Basic
import ConceptLedger.Data.SortedMap

/-!
Edits: what is to change in a stored concept. All else stays as it is.
-/

namespace ConceptLedger

/-- What is to change in a concept. -/
structure ConceptEdit where
  /-- Properties that get a new value. -/
  set : SortedMap String PropertyValue := SortedMap.empty
  /-- Properties that are removed. -/
  unset : List String := []
  revision : Option UInt64 := none
  conceptType : Option ConceptType := none
  accessOverride : Option AccessOverride := none
  /-- The container, which may change to none. -/
  container : Option (Option ConceptId) := none

namespace ConceptEdit

/-- The concept after an edit. A property that is both set and removed is removed. -/
def apply (e : ConceptEdit) (c : Concept) : Concept :=
  let changed := e.set.toList.foldl (fun c p => c.setProperty p.1 p.2) c
  let c := e.unset.foldl Concept.unsetProperty changed
  { c with
    revisionNumber := e.revision.getD c.revisionNumber
    conceptType := e.conceptType.getD c.conceptType
    accessOverride := e.accessOverride.getD c.accessOverride
    container := e.container.getD c.container }

end ConceptEdit

end ConceptLedger
