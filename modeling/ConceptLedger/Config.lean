import ConceptLedger.Failure
import ConceptLedger.Policy
import ConceptLedger.Toml.Reader

/-!
The configuration of an engine: where its database is, what it logs, which rights hold when a role
is silent, and how far cascades go. It is read from TOML; whatever is left out has a default, and
whatever is not known is refused.
-/

namespace ConceptLedger

/-- What is logged and how. -/
inductive LogProfile where
  | development
  | production
  | test
deriving DecidableEq

namespace LogProfile

/-- The written name of a profile. -/
def name : LogProfile → String
  | development => "development"
  | production => "production"
  | test => "test"

/-- The profile of a written name. -/
def ofName? : String → Option LogProfile
  | "development" => some development
  | "production" => some production
  | "test" => some test
  | _ => none

end LogProfile

/-- The configuration of an engine. -/
structure Config where
  database : String := ".conceptx/store.db"
  profile : LogProfile := .development
  defaults : ScopeDefaults := {}
  maxCascade : Nat := 10000
deriving DecidableEq

namespace Config

/-- The policy that a configuration asks for, with the standard hooks. -/
def policy (c : Config) : Policy := { gate := c.defaults.gate, limit := c.maxCascade }

/-- The activity in which a configuration is refused. -/
def op : String := "load_config"

/-- The failure of a text that is no configuration. -/
def malformed : Failure := .during .validation op "the text is not a configuration"

/-- The values of a section by name: a table with no other names, or a list in the order of the
names that may end early. -/
def section? (names : List String) : Toml → Option (List (Option Toml))
  | .table _ entries => fieldsOf entries
  | .array items => some (names.zipIdx.map fun e => items[e.2]?)
  | .tables all => some (names.zipIdx.map fun e => all[e.2]?.map (Toml.table .headed))
  | _ => none
where
  /-- The values of a table by name. -/
  fieldsOf (entries : Toml.Entries) : Option (List (Option Toml)) :=
    if entries.all fun e => e.1 ∈ names then some (names.map fun n => Toml.lookup? n entries)
    else none

/-- Reads a text. -/
def text? : Toml → Option String
  | .string s => some s
  | _ => none

/-- Reads one of a set of names: as a text, or as the only key of a table that gives it nothing. -/
def named? {α : Type} (ofName? : String → Option α) : Toml → Option α
  | .string s => ofName? s
  | .table _ [(name, .table _ [])] | .table _ [(name, .array [])] => ofName? name
  | _ => none

/-- Reads a number that is not negative. -/
def count? : Toml → Option Nat
  | .integer n => if 0 ≤ n then some n.toInt.toNat else none
  | _ => none

/-- Reads a value that has a default. -/
def withDefault {α : Type} (read : Toml → Option α) (default : α) : Option Toml → Option α
  | none => some default
  | some value => read value

/-- Reads the profile from the section on logging. -/
def logging? (t : Toml) : Option LogProfile := do
  match ← section? ["profile"] t with
  | [profile] => withDefault (named? LogProfile.ofName?) .development profile
  | _ => none

/-- Reads the default rights from the section on permissions. -/
def permissions? (t : Toml) : Option ScopeDefaults := do
  match ← section? ["canonical_default", "reference_default"] t with
  | [canonical, reference] =>
    let standard : ScopeDefaults := {}
    some
      { canonical := ← withDefault (named? AccessRight.ofName?) standard.canonical canonical
        reference := ← withDefault (named? AccessRight.ofName?) standard.reference reference }
  | _ => none

/-- Reads the greatest number of cascades from the section on processing. -/
def processing? (t : Toml) : Option Nat := do
  match ← section? ["max_cascade_operations"] t with
  | [limit] => withDefault count? 10000 limit
  | _ => none

/-- Reads a configuration from a document. -/
def ofEntries? (entries : Toml.Entries) : Option Config := do
  let names := ["database", "logging", "permissions", "processing"]
  match ← section? names (.table .headed entries) with
  | [database, logging, permissions, processing] =>
    some
      { database := ← withDefault text? ".conceptx/store.db" database
        profile := ← withDefault logging? .development logging
        defaults := ← withDefault permissions? {} permissions
        maxCascade := ← withDefault processing? 10000 processing }
  | _ => none

/-- Reads a configuration. Batches must be allowed at least one cascade. -/
def parse (text : String) : Except Failure Config :=
  match (Toml.read? text).bind ofEntries? with
  | none => .error malformed
  | some c =>
    if c.maxCascade = 0 then
      .error (.during .validation op "processing.max_cascade_operations must be at least 1")
    else .ok c

end Config

end ConceptLedger
