import ConceptLedger.CommandLine.Directory
import ConceptLedger.CommandLine.Request
import ConceptLedger.Config
import ConceptLedger.Json.Reader
import ConceptLedger.Json.Writer
import ConceptLedger.Wire.Operation
import ConceptLedger.Wire.Query

/-!
Carrying out a command. The files of a request are read first, then the configuration, and then
the store is opened; the first thing that fails is reported. A store that was opened is there
afterwards even if the command failed.
-/

namespace ConceptLedger.CommandLine

/-- How a command ends. -/
inductive Outcome where
  | help
  | misuse
  | done (output : String)
  | failed (message : String)
deriving DecidableEq

namespace Outcome

/-- What the program answers to the shell. -/
def exitCode : Outcome → UInt8
  | help | done _ => 0
  | failed _ => 1
  | misuse => 2

/-- The help text. -/
def usage : String :=
  "Usage: conceptx [--config FILE] [--db FILE] COMMAND\n\n" ++
    "  init                                   create the store\n" ++
    "  submit --actor FILE --batch FILE       submit a batch of operations\n" ++
    "  get PARTITION ID... [--deep] [--cached] [--exclude-deleted]\n" ++
    "      [--as-of-revision N] [--actor FILE]  read concepts\n" ++
    "  history PARTITION ID [--actor FILE]    list the records of a concept\n" ++
    "  help [COMMAND]                         show this text\n"

/-- What is written for the reader of the answer. -/
def output : Outcome → String
  | help => usage
  | done text => text ++ "\n"
  | failed _ | misuse => ""

/-- What is written about a failure. -/
def complaint : Outcome → String
  | failed message => "Error: " ++ message ++ "\n"
  | misuse => "error: the command line cannot be understood\n\n" ++ usage
  | help | done _ => ""

end Outcome

/-- Reads a file that holds JSON. -/
def readFile {α : Type} (d : Directory) (read : Json → Option α) (path : String) :
    Except String α :=
  match d.readText path with
  | .error e => .error s!"cannot read {path}: {e.message}"
  | .ok text =>
    match (Json.read? text).bind read with
    | some a => .ok a
    | none => .error s!"invalid JSON in {path}"

/-- The actor of a file, or else a local administrator with the given identifier. -/
def actorFrom (d : Directory) (id : Uuid) : Option String → Except String Actor
  | some path => readFile d Wire.actor? path
  | none => .ok { id, name := "local", isAdmin := true }

/-- Reads the configuration of a file, or the standard one. -/
def loadConfig (d : Directory) : Option String → Except Failure Config
  | none => .ok {}
  | some path =>
    match d.readText path with
    | .ok text => Config.parse text
    | .error e => .error (.during .io Config.op s!"{path}: {e.message}")

namespace Request

/-- The configuration of a request. A database that is named on the command line counts. -/
def loadConfig (r : Request) (d : Directory) : Except Failure Config :=
  (CommandLine.loadConfig d r.config).map fun c =>
    { c with database := r.database.getD c.database }

/-- The files that a request reads besides the store. -/
def files (r : Request) : List String :=
  r.config.toList ++
    match r.action with
    | .init => []
    | .submit actor batch => [actor, batch]
    | .read actor _ _ => actor.toList

end Request

/-- What a command does to an open store under a policy. -/
abbrev Work := Policy → IdSupply → Tables.Database → Except String String × Tables.Database

/-- Answers a batch. -/
def submitWork (actor : Actor) (p : Partition) (operations : List Operation) (now : Instant) :
    Work := fun policy ids db =>
  let request : BatchRequest :=
    { context := { requestId := ids.next.text }, actor, partition := p, operations }
  match policy.submit request now ids.rest db with
  | (submission, db) =>
    match submission.result with
    | .ok outcome => (.ok (Wire.ofBatchOutcome outcome).pretty, db)
    | .error f => (.error f.batchText, db)

/-- Answers a query. -/
def readWork (actor : Actor) (p : Partition) (query : Query) (now : Instant) : Work :=
  fun policy _ db =>
    match policy.answer actor p query now db with
    | (reading, db) =>
      match reading.result with
      | .ok answer => (.ok (Wire.ofQueryAnswer answer).pretty, db)
      | .error f => (.error f.text, db)

namespace Request

/-- What a request does, once its files are read. -/
def work (r : Request) (d : Directory) (now : Instant) (ids : IdSupply) :
    Except String (Config → Work) := do
  match r.action with
  | .init => pure fun c _ _ db => (.ok s!"Initialized store at {c.database}", db)
  | .submit actor batch =>
    let actor ← readFile d Wire.actor? actor
    let (p, operations) ← readFile d Wire.batchFile? batch
    pure fun _ => submitWork actor p operations now
  | .read actor p query =>
    let actor ← actorFrom d ids.next actor
    pure fun _ => readWork actor p query now

/-- Carries out a request at a reading of the clock. -/
def run (r : Request) (now : Instant) (ids : IdSupply) (d : Directory) : Outcome × Directory :=
  match r.work d now ids with
  | .error message => (.failed message, d)
  | .ok work =>
    match r.loadConfig d with
    | .error f => (.failed f.text, d)
    | .ok c =>
      match d.openStore c.database with
      | (.error f, d) => (.failed f.text, d)
      | (.ok s, d) =>
        match work c c.policy ids.rest s.db with
        | (.ok output, db) => (.done output, d.keepStore { s with db })
        | (.error message, db) => (.failed message, d.keepStore { s with db })

end Request

/-- Carries out a command line. -/
def run (args : List String) (now : Instant) (ids : IdSupply) (d : Directory) :
    Outcome × Directory :=
  match Request.read args with
  | .error .help => (.help, d)
  | .error .misuse => (.misuse, d)
  | .ok r => r.run now ids d

end ConceptLedger.CommandLine
