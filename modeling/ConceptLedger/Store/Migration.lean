import ConceptLedger.Failure
import ConceptLedger.Sha256

/-!
The schema of the tables, built up by migrations. Each migration is recorded with the checksum of
its text; a recorded migration is not run again, and one whose text has changed since is refused.
-/

namespace ConceptLedger

/-- A line of SQL: one that begins to create an object of the schema, or any other. -/
inductive SqlLine where
  | create (kind name rest : String)
  | other (text : String)

namespace SqlLine

/-- The line as text. -/
def text : SqlLine → String
  | create kind name rest => "CREATE " ++ kind ++ " " ++ name ++ rest
  | other text => text

/-- The name of the object that a line begins to create. -/
def created? : SqlLine → Option String
  | create _ name _ => some name
  | other _ => none

end SqlLine

/-- A step in building the schema, with the lines of its text. -/
structure Migration where
  id : String
  lines : List SqlLine

namespace Migration

/-- The text of a migration. Every line of it is ended. -/
def text (m : Migration) : String := String.join (m.lines.map (·.text ++ "\n"))

/-- The tables for concepts, the revision log and the counters. -/
def initialSchema : Migration where
  id := "001_initial_schema"
  lines := [
    .other "-- Current state of every concept, one row per (partition, id)",
    .create "TABLE" "concepts" " (",
    .other "    partition TEXT NOT NULL,",
    .other "    id TEXT NOT NULL,",
    .other "    concept_type TEXT NOT NULL,",
    .other "    container_id TEXT,",
    .other "    revision_number INTEGER NOT NULL,",
    .other "    properties_json TEXT NOT NULL,",
    .other "    access_override_json TEXT NOT NULL DEFAULT '\x7b\x7d',",
    .other "    PRIMARY KEY (partition, id)",
    .other ");",
    .other "",
    .create "INDEX" "idx_concepts_type" " ON concepts(partition, concept_type);",
    .create "INDEX" "idx_concepts_container" " ON concepts(partition, container_id);",
    .other "",
    .other "-- Append-only revision log; a NULL snapshot records a removal",
    .create "TABLE" "revision_log" " (",
    .other "    partition TEXT NOT NULL,",
    .other "    concept_id TEXT NOT NULL,",
    .other "    revision INTEGER NOT NULL,",
    .other "    concept_type TEXT NOT NULL,",
    .other "    snapshot_json TEXT,",
    .other "    committed_at INTEGER NOT NULL,",
    .other "    PRIMARY KEY (partition, concept_id, revision)",
    .other ");",
    .other "",
    .create "INDEX" "idx_revision_log_time" " ON revision_log(partition, committed_at);",
    .other "",
    .other "-- Highest revision allocated per partition",
    .create "TABLE" "partition_revision" " (",
    .other "    partition TEXT PRIMARY KEY,",
    .other "    revision INTEGER NOT NULL CHECK (revision >= 0)",
    .other ");"]

/-- The guards that keep the log append-only and the counters growing. -/
def revisionLogGuards : Migration where
  id := "002_revision_log_guards"
  lines := [
    .other "-- Revision records are immutable once written",
    .create "TRIGGER" "revision_log_no_update" "",
    .other "BEFORE UPDATE ON revision_log",
    .other "BEGIN",
    .other "    SELECT RAISE(ABORT, 'revision_log is append-only');",
    .other "END;",
    .other "",
    .create "TRIGGER" "revision_log_no_delete" "",
    .other "BEFORE DELETE ON revision_log",
    .other "BEGIN",
    .other "    SELECT RAISE(ABORT, 'revision_log is append-only');",
    .other "END;",
    .other "",
    .other "-- Revision counters never move backwards",
    .create "TRIGGER" "partition_revision_monotonic" "",
    .other "BEFORE UPDATE ON partition_revision",
    .other "WHEN NEW.revision <= OLD.revision",
    .other "BEGIN",
    .other "    SELECT RAISE(ABORT, 'partition revision must increase');",
    .other "END;"]

/-- All migrations in the order in which they are applied. -/
def all : List Migration := [initialSchema, revisionLogGuards]

/-- The checksum of a migration. -/
def checksum (m : Migration) : String := Sha256.checksum m.text

/-- The names of the tables, indexes and triggers that a migration creates. -/
def creates (m : Migration) : List String := m.lines.filterMap SqlLine.created?

end Migration

/-- The record of an applied migration. Its checksum may be unknown. -/
structure AppliedMigration where
  id : String
  checksum : Option String
deriving DecidableEq

/-- What a database holds besides rows: the objects of its schema, and the bookkeeping of
migrations unless that does not exist yet. -/
structure Catalog where
  objects : List String := []
  bookkeeping : Option (List AppliedMigration) := none
deriving DecidableEq

namespace Catalog

/-- The failure of a migration to run. -/
def migrationFailure (m : Migration) (reason : String) : Failure :=
  .during .persistence "migration" s!"Migration {m.id} failed: {reason}"

/-- The failure of an applied migration whose text has changed. -/
def alteredText (m : Migration) (recorded : String) : Failure :=
  .during .validation "migration_checksum"
    s!"Checksum mismatch for migration {m.id}: expected {recorded}, got {m.checksum}"

/-- The bookkeeping, which must exist. -/
def records (c : Catalog) : Except Failure (List AppliedMigration) :=
  match c.bookkeeping with
  | some records => .ok records
  | none => .error (.during .persistence "sqlite" "no such table: schema_version")

/-- Runs a migration that is not recorded. It takes effect as a whole or not at all. -/
def execute (c : Catalog) (m : Migration) : Except Failure Catalog :=
  match m.creates.find? (c.objects.contains ·) with
  | some name => .error (migrationFailure m s!"{name} already exists")
  | none =>
    .ok
      { objects := c.objects ++ m.creates
        bookkeeping := some (c.bookkeeping.getD [] ++ [⟨m.id, some m.checksum⟩]) }

/-- Applies a migration unless it is recorded. -/
def applyOne (c : Catalog) (m : Migration) : Except Failure Catalog :=
  match (c.bookkeeping.getD []).find? (·.id = m.id) with
  | some ⟨_, some recorded⟩ =>
    if recorded = m.checksum then .ok c else .error (alteredText m recorded)
  | some ⟨_, none⟩ => .ok c
  | none => c.execute m

/-- Applies migrations in order up to the first failure; those before it stay applied. -/
def applyAll (c : Catalog) : List Migration → Except Failure Unit × Catalog
  | [] => (.ok (), c)
  | m :: rest =>
    match c.applyOne m with
    | .ok c => c.applyAll rest
    | .error f => (.error f, c)

/-- Starts the bookkeeping if need be, and applies the migrations of the schema. -/
def migrate (c : Catalog) : Except Failure Unit × Catalog :=
  { c with bookkeeping := some (c.bookkeeping.getD []) }.applyAll Migration.all

/-- The identifiers of the recorded migrations in the order in which they were applied. -/
def applied (c : Catalog) : Except Failure (List String) := c.records.map (·.map (·.id))

/-- The recorded checksums in the order in which the migrations were applied. -/
def checksums (c : Catalog) : Except Failure (List (Option String)) :=
  c.records.map (·.map (·.checksum))

/-- Overwrites a recorded checksum; answers the number of records changed. -/
def setChecksum (c : Catalog) (id : String) (checksum : Option String) :
    Except Failure (Nat × Catalog) :=
  c.records.map fun records =>
    (records.countP (·.id = id),
      { c with bookkeeping := some (records.map fun r =>
          if r.id = id then { r with checksum } else r) })

/-- Forgets a recorded migration; answers the number of records removed. -/
def forget (c : Catalog) (id : String) : Except Failure (Nat × Catalog) :=
  c.records.map fun records =>
    (records.countP (·.id = id),
      { c with bookkeeping := some (records.filter (·.id ≠ id)) })

/-- Removes the bookkeeping, which must exist. -/
def dropBookkeeping (c : Catalog) : Except Failure Catalog :=
  c.records.map fun _ => { c with bookkeeping := none }

end Catalog

end ConceptLedger
