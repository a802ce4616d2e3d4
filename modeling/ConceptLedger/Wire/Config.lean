import ConceptLedger.Config
import ConceptLedger.Wire.Actor

/-!
The wire format of configurations.
-/

namespace ConceptLedger.Wire

/-- Writes a configuration in its sections. -/
def ofConfig (c : Config) : Json :=
  .obj [("database", .str c.database),
    ("logging", .obj [("profile", .str c.profile.name)]),
    ("permissions", .obj [("canonical_default", ofAccessRight c.defaults.canonical),
      ("reference_default", ofAccessRight c.defaults.reference)]),
    ("processing", .obj [("max_cascade_operations", .int c.maxCascade)])]

end ConceptLedger.Wire
