import ConceptLedger.Concept.Basic
import ConceptLedger.Partition

/-!
Addresses: an identifier is unique only within its partition.
-/

namespace ConceptLedger

/-- Where a concept is stored. -/
structure Address where
  partition : Partition
  id : ConceptId
deriving DecidableEq, Inhabited

namespace Address

/-- Addresses by partition and then by identifier. -/
instance : Ord Address :=
  ⟨compareLex (compareOn Address.partition) (compareOn Address.id)⟩

instance : Std.TransOrd Address :=
  inferInstanceAs
    (Std.TransCmp (compareLex (compareOn Address.partition) (compareOn Address.id)))

instance : Std.LawfulEqOrd Address where
  eq_of_compare {a b} same := by
    obtain ⟨parts, ids⟩ := compareLex_eq_eq.mp same
    have first : a.partition = b.partition := Std.LawfulEqCmp.eq_of_compare parts
    have second : a.id = b.id := Std.LawfulEqCmp.eq_of_compare ids
    cases a
    cases b
    simp_all

end Address

end ConceptLedger
