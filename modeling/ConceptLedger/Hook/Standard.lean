import ConceptLedger.Hook.EngineeringModelSetup
import ConceptLedger.Hook.IterationSetup

/-!
The registry that stores use unless they are given another one.
-/

namespace ConceptLedger

/-- The registry with the rules of both lifecycles. -/
def Registry.standard : Registry :=
  ⟨[(.engineeringModelSetup, EngineeringModelSetup.hook),
    (.iterationSetup, IterationSetup.hook)]⟩

end ConceptLedger
