import ConceptLedger.CommandLine.Grammar
import ConceptLedger.Data.Word
import ConceptLedger.Query
import ConceptLedger.Text.Digits

/-!
What a command line asks for: to set up a store, to submit a batch from a file, or to read. The
options for the configuration and the database may stand before the command and after it; those
after it count.
-/

namespace ConceptLedger.CommandLine

/-- What is to be done. -/
inductive Action where
  | init
  | submit (actor batch : String)
  | read (actor : Option String) (partition : Partition) (query : Query)

/-- What is to be done, with which configuration and on which database. -/
structure Request where
  config : Option String
  database : Option String
  action : Action

namespace Request

/-- A path, which is not empty. -/
def path (name : String) : Parameter := ⟨name, fun s => !s.isEmpty, false⟩

/-- Reads a revision: digits, perhaps behind a plus sign, up to `2 ^ 64 - 1`. -/
def revision? (s : String) : Option UInt64 :=
  let digits := match s.toList with
    | '+' :: rest => rest
    | cs => cs
  (Digits.readDecimal? digits).bind fun n => Word.unsigned? n

/-- The options that may stand anywhere. -/
def everywhere : List Parameter := [path "config", path "db"]

/-- The parameter for a partition. -/
def partition : Parameter := ⟨"partition", fun s => (Partition.read? s).isSome, false⟩

/-- The parameter for identifiers. -/
def ids (many : Bool) : Parameter := ⟨"id", fun s => (Uuid.read? s).isSome, many⟩

/-- The grammar before a command. -/
def root : Grammar :=
  { options := everywhere, commands := ["init", "submit", "get", "history", "help"] }

/-- The grammar of a command. -/
def grammarOf : String → Grammar
  | "submit" => { options := everywhere ++ [path "actor", path "batch"] }
  | "get" =>
    { options := everywhere ++
        [path "actor", ⟨"as-of-revision", fun s => (revision? s).isSome, false⟩]
      flags := ["deep", "cached", "exclude-deleted"]
      places := [partition, ids true] }
  | "history" => { options := everywhere ++ [path "actor"], places := [partition, ids false] }
  | _ => { options := everywhere }

/-- The query of a `get`. A past revision goes with none of the flags. -/
def getQuery? (g : Given) : Option Query :=
  match (g.all "id").mapM Uuid.read?, g.value? "as-of-revision" with
  | none, _ | some [], _ => none
  | some ids, some text =>
    if g.flags.isEmpty then (revision? text).map fun n => .asOf ids (.revision n) else none
  | some ids, none =>
    let options : ReadOptions :=
      { mode := if g.flag "cached" then .cached else .live
        excludeSoftDeleted := g.flag "exclude-deleted" }
    some (if g.flag "deep" then .deep ids options else .shallow ids options)

/-- What a command is to do, if nothing that it needs is missing. -/
def actionOf? (command : String) (g : Given) : Option Action := do
  match command with
  | "init" => some .init
  | "submit" => some (.submit (← g.value? "actor") (← g.value? "batch"))
  | "get" =>
    let p ← (← g.value? "partition") |> Partition.read?
    some (.read (g.value? "actor") p (← getQuery? g))
  | "history" =>
    let p ← (← g.value? "partition") |> Partition.read?
    let id ← (← g.value? "id") |> Uuid.read?
    some (.read (g.value? "actor") p (.history id))
  | _ => none

/-- Reads what follows a command. -/
def readCommand (command : String) (args : List String) : Except Refusal (Given × Action) := do
  let (s, _) ← (grammarOf command).scan {} args
  let s ← s.settle
  match actionOf? command s.given with
  | some action => pure (s.given, action)
  | none => throw .misuse

/-- Reads a command line. -/
def read (args : List String) : Except Refusal Request := do
  let (before, found) ← root.scan {} args
  match found with
  | none => throw .misuse
  | some ("help", topics) =>
    match topics with
    | [] => throw .help
    | [topic] => throw (if root.commands.contains topic then .help else .misuse)
    | _ => throw .misuse
  | some (command, rest) =>
    let (after, action) ← readCommand command rest
    let before ← before.settle
    let chosen (name : String) : Option String :=
      (after.value? name).or (before.given.value? name)
    pure ⟨chosen "config", chosen "db", action⟩

end Request

end ConceptLedger.CommandLine
