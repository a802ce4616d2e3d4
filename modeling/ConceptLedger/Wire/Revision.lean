import ConceptLedger.Read.Resolve
import ConceptLedger.Revision
import ConceptLedger.Wire.Concept

/-!
The wire format of revision records, bounds and the options of reads.
-/

namespace ConceptLedger.Wire

/-- The fields of a revision record. -/
def recordFields : List String :=
  ["partition", "concept_id", "concept_type", "revision", "state", "committed_at"]

/-- Reads a revision record. -/
def revisionRecord? (j : Json) : Option RevisionRecord :=
  match j.record? recordFields with
  | some [p, id, type, revision, state, time] => do
    some
      { partition := ← required partition? p
        conceptId := ← required uuid? id
        conceptType := ← required conceptType? type
        revision := ← required word? revision
        state := ← optional concept? state
        committedAt := ← required instant? time }
  | _ => none

/-- Writes a revision record. -/
def ofRevisionRecord (r : RevisionRecord) : Json :=
  .obj [("partition", ofPartition r.partition), ("concept_id", ofUuid r.conceptId),
    ("concept_type", ofConceptType r.conceptType), ("revision", ofWord r.revision),
    ("state", ofOption ofConcept r.state), ("committed_at", ofInstant r.committedAt)]

/-- Reads a bound on the log: one member that names its sort. -/
def asOf? : Json → Option AsOf
  | .obj [("revision", n)] => (word? n).map .revision
  | .obj [("instant", t)] => (instant? t).map .instant
  | _ => none

/-- Writes a bound on the log. -/
def ofAsOf : AsOf → Json
  | .revision n => .obj [("revision", ofWord n)]
  | .instant t => .obj [("instant", ofInstant t)]

/-- The read mode of a name. -/
def readModeOfName? : String → Option ReadMode
  | "live" => some .live
  | "cached" => some .cached
  | _ => none

/-- Writes a read mode. -/
def ofReadMode : ReadMode → Json
  | .live => .str "live"
  | .cached => .str "cached"

/-- Reads the options of a read. -/
def readOptions? (j : Json) : Option ReadOptions :=
  match j.record? ["mode", "exclude_soft_deleted"] with
  | some [mode, exclude] => do
    some ⟨← defaulted (named? readModeOfName?) .live mode,
      ← defaulted Json.bool? false exclude⟩
  | _ => none

/-- Writes the options of a read. -/
def ofReadOptions (o : ReadOptions) : Json :=
  .obj [("mode", ofReadMode o.mode), ("exclude_soft_deleted", .bool o.excludeSoftDeleted)]

end ConceptLedger.Wire
