import ConceptLedger.Uuid

/-!
New identifiers: an endless stream, fixed in advance, and how far it has been used.
-/

namespace ConceptLedger

/-- A stream of new identifiers and the place of the next one. -/
structure IdSupply where
  stream : Nat → Uuid
  position : Nat := 0

namespace IdSupply

/-- The next identifier. -/
def next (s : IdSupply) : Uuid := s.stream s.position

/-- The supply after one identifier was taken. -/
def rest (s : IdSupply) : IdSupply := { s with position := s.position + 1 }

end IdSupply

end ConceptLedger
