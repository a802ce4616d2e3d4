/-!
Command lines: options with one value, flags, arguments by place, and the names of commands, at
which the grammar of the command takes over. Arguments are looked at one after the other, and a
value is checked when the next option begins or the line ends, so of several mistakes and a
request for help the first one decides.
-/

namespace ConceptLedger.CommandLine

/-- Why a command line is not carried out: it asks for help, or it cannot be understood. -/
inductive Refusal where
  | help
  | misuse
deriving DecidableEq

/-- Something that takes values: its name, which values it takes, and whether it takes several. -/
structure Parameter where
  name : String
  accepts : String → Bool
  many : Bool := false

/-- What may stand on a command line. Options and flags are named without their two hyphens. -/
structure Grammar where
  options : List Parameter
  flags : List String := []
  places : List Parameter := []
  commands : List String := []

/-- What was given: values by the name of their parameter, in order, and flags. -/
structure Given where
  values : List (String × List String) := []
  flags : List String := []

namespace Given

/-- The values of a parameter. -/
def all (g : Given) (name : String) : List String :=
  (g.values.filter fun e => e.1 = name).flatMap (·.2)

/-- The value of a parameter that takes one. -/
def value? (g : Given) (name : String) : Option String := (g.all name).head?

/-- Whether a flag was given. -/
def flag (g : Given) (name : String) : Bool := g.flags.contains name

end Given

/-- How far a command line has been read. -/
structure Progress where
  given : Given := {}
  /-- A parameter whose values have not been checked yet. -/
  pending : Option (Parameter × List String) := none
  /-- Whether the next argument must be the value of the pending option. -/
  awaiting : Bool := false
  /-- The place of the next argument that is no option. -/
  place : Nat := 0
  /-- Whether two hyphens have ended the options. -/
  literal : Bool := false

namespace Progress

/-- Checks the pending values and takes them over. A parameter for one value is given once. -/
def settle (s : Progress) : Except Refusal Progress :=
  match s.pending with
  | none => .ok s
  | some (p, values) =>
    if values.isEmpty || !values.all p.accepts then .error .misuse
    else if !p.many && s.given.values.any (·.1 = p.name) then .error .misuse
    else
      .ok { s with
        pending := none
        given := { s.given with values := s.given.values ++ [(p.name, values)] } }

/-- Takes an argument as a value: of the option that waits for one, or by its place. -/
def takeValue (g : Grammar) (s : Progress) (arg : String) : Except Refusal Progress :=
  match s.awaiting, s.pending with
  | true, some (p, values) =>
    .ok { s with pending := some (p, values ++ [arg]), awaiting := false }
  | _, _ =>
    match g.places[s.place]? with
    | none => .error .misuse
    | some p =>
      let next := if p.many then s.place else s.place + 1
      match s.pending with
      | some (q, values) =>
        if q.name = p.name && p.many then
          .ok { s with pending := some (p, values ++ [arg]), place := next }
        else s.settle.map fun s => { s with pending := some (p, [arg]), place := next }
      | none => .ok { s with pending := some (p, [arg]), place := next }

/-- Takes an option or a flag, with the value behind its equals sign if there is one. -/
def takeOption (g : Grammar) (s : Progress) (name : String) (attached : Option String) :
    Except Refusal Progress := do
  match g.options.find? (·.name = name), attached with
  | some p, some value =>
    let s ← s.settle
    settle { s with pending := some (p, [value]) }
  | some p, none =>
    let s ← s.settle
    pure { s with pending := some (p, []), awaiting := true }
  | none, some _ => throw .misuse
  | none, none =>
    if name ∉ "help" :: g.flags then throw .misuse
    let s ← s.settle
    if name = "help" then throw .help
    if s.given.flag name then throw .misuse
    pure { s with given := { s.given with flags := s.given.flags ++ [name] } }

/-- Takes an argument that is no command. -/
def take (g : Grammar) (s : Progress) (arg : String) : Except Refusal Progress :=
  if s.literal then takeValue g { s with awaiting := false } arg
  else
    match arg.toList with
    | ['-', '-'] => .ok { s with literal := true }
    | '-' :: '-' :: long =>
      let name := long.takeWhile (· ≠ '=')
      let attached := (long.dropWhile (· ≠ '=')).tail?.map String.ofList
      takeOption g { s with awaiting := false } (String.ofList name) attached
    | '-' :: 'h' :: _ => s.settle.bind fun _ => .error .help
    | '-' :: _ :: _ => .error .misuse
    | _ => takeValue g s arg

end Progress

/-- Reads a command line up to a command, which is answered with what follows it, or to its end.
A word that an option waits for is its value and no command. -/
def Grammar.scan (g : Grammar) (s : Progress) :
    List String → Except Refusal (Progress × Option (String × List String))
  | [] => .ok (s, none)
  | arg :: rest =>
    if !s.literal && !s.awaiting && g.commands.contains arg then .ok (s, some (arg, rest))
    else
      match s.take g arg with
      | .ok s => g.scan s rest
      | .error r => .error r

end ConceptLedger.CommandLine
