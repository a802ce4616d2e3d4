/-!
TOML values, and how the tables of a document are put together from headers and dotted keys. A
table remembers how it came about, because that decides what may still be added to it.
-/

namespace ConceptLedger

/-- How a table came about: as a part of a longer header, through a dotted key, under a header of
its own, or in one piece as a value. -/
inductive TableOrigin where
  | implied
  | dotted
  | headed
  | inline
deriving DecidableEq

/-- A TOML value. Floats and dates keep their text; `tables` is a list of tables under repeated
headers. -/
inductive Toml where
  | string (value : String)
  | integer (value : Int64)
  | float (text : String)
  | boolean (value : Bool)
  | dateTime (text : String)
  | array (items : List Toml)
  | table (origin : TableOrigin) (entries : List (String × Toml))
  | tables (all : List (List (String × Toml)))

namespace Toml

/-- The entries of a table, by key. -/
abbrev Entries := List (String × Toml)

/-- The value of a key. -/
def lookup? (key : String) (entries : Entries) : Option Toml :=
  (entries.find? fun e => e.1 = key).map (·.2)

/-- The entries with the value of a key replaced. -/
def replace (key : String) (value : Toml) (entries : Entries) : Entries :=
  entries.map fun e => if e.1 = key then (key, value) else e

/-- Changes the table at a path, or answers nothing where a path must not lead. Tables that are
missing on the way come about with the given origin. A dotted key does not reach into a table
that has a header, and nothing reaches into a table that was written in one piece. -/
def update (missing : TableOrigin) (f : TableOrigin → Entries → Option (TableOrigin × Entries)) :
    List String → TableOrigin → Entries → Option (TableOrigin × Entries)
  | [], own, entries => f own entries
  | key :: rest, own, entries =>
    match lookup? key entries with
    | none =>
      (update missing f rest missing []).map fun t => (own, entries ++ [(key, .table t.1 t.2)])
    | some (.table origin inner) =>
      if origin = .inline || (missing = .dotted && origin = .headed) then none
      else
        (update missing f rest origin inner).map fun t =>
          (own, replace key (.table t.1 t.2) entries)
    | some (.tables all) =>
      (update missing f rest .headed (all.getLastD [])).map fun t =>
        (own, replace key (.tables (all.dropLast ++ [t.2])) entries)
    | some _ => none

/-- Adds an entry under a new key. -/
def add (key : String) (value : Toml) (entries : Entries) : Option Entries :=
  if (lookup? key entries).isSome then none else some (entries ++ [(key, value)])

/-- Adds an entry under a dotted key, which is a path and a last part. The path leads through
tables that came about through dotted keys. -/
def addDotted (path : List String) (key : String) (value : Toml) (own : TableOrigin)
    (entries : Entries) : Option (TableOrigin × Entries) :=
  update .dotted (fun origin entries =>
    if (origin == .dotted) == path.isEmpty then none
    else (add key value entries).map (origin, ·)) path own entries

/-- Opens the table under a header, which may have been implied before but nothing else. -/
def open? (path : List String) (key : String) (entries : Entries) : Option Entries :=
  (update .implied (fun own entries =>
    match lookup? key entries with
    | none => some (own, entries ++ [(key, .table .headed [])])
    | some (.table .implied inner) => some (own, replace key (.table .headed inner) entries)
    | some _ => none) path .headed entries).map (·.2)

/-- Opens one more table under a repeated header. -/
def openNext? (path : List String) (key : String) (entries : Entries) : Option Entries :=
  (update .implied (fun own entries =>
    match lookup? key entries with
    | none => some (own, entries ++ [(key, .tables [[]])])
    | some (.tables all) => some (own, replace key (.tables (all ++ [[]])) entries)
    | some _ => none) path .headed entries).map (·.2)

/-- Adds an entry to the table under a header. -/
def addUnder (header path : List String) (key : String) (value : Toml) (entries : Entries) :
    Option Entries :=
  (update .implied (addDotted path key value) header .headed entries).map (·.2)

end Toml

end ConceptLedger
