import ConceptLedger.Binary64.Basic

/-!
JSON values. Objects keep their members in reading order, repeated names included, so that each
reader of an object decides what a repeated name means.
-/

namespace ConceptLedger

/-- A JSON value. Numbers without fraction and exponent are integers, all others floats. -/
inductive Json where
  | null
  | bool (value : Bool)
  | int (value : Int)
  | float (value : Binary64)
  | str (value : String)
  | arr (items : List Json)
  | obj (members : List (String × Json))

namespace Json

instance : Inhabited Json := ⟨.null⟩

/-- The values a list of members gives to a name, in order. -/
def valuesOf (name : String) (members : List (String × Json)) : List Json :=
  (members.filter fun m => m.1 = name).map (·.2)

/-- The value of a name that may be absent but not repeated. -/
def unique? (name : String) (members : List (String × Json)) : Option (Option Json) :=
  match valuesOf name members with
  | [] => some none
  | [value] => some (some value)
  | _ => none

/-- The values of a record's fields in declaration order, each present or not. A record is an
object, whose other members do not matter, or an array with a value for each of the first
fields. -/
def record? (fields : List String) : Json → Option (List (Option Json))
  | .obj members => fields.mapM fun name => unique? name members
  | .arr items =>
    if items.length ≤ fields.length then
      some (items.map some ++ List.replicate (fields.length - items.length) none)
    else none
  | _ => none

/-- The value of a member, the last one if the name is repeated. -/
def member? (name : String) : Json → Option Json
  | .obj members => (valuesOf name members).getLast?
  | _ => none

/-- The text of a string value. -/
def string? : Json → Option String
  | .str s => some s
  | _ => none

/-- The truth value. -/
def bool? : Json → Option Bool
  | .bool b => some b
  | _ => none

/-- The integer value. -/
def int? : Json → Option Int
  | .int n => some n
  | _ => none

/-- The items of an array. -/
def items? : Json → Option (List Json)
  | .arr items => some items
  | _ => none

/-- The members of an object. -/
def members? : Json → Option (List (String × Json))
  | .obj members => some members
  | _ => none

/-- An object of the members that are present. -/
def objOf (members : List (Option (String × Json))) : Json := .obj (members.filterMap id)

/-- The member of a name, unless it is left out. -/
def memberIf (keep : Bool) (name : String) (value : Json) : Option (String × Json) :=
  if keep then some (name, value) else none

/-- A value or `null`. -/
def orNull : Option Json → Json
  | some value => value
  | none => .null

mutual

/-- The value in which every object keeps only the last of the members with one name. -/
def lastWins : Json → Json
  | .arr items => .arr (lastWinsItems items)
  | .obj members => .obj (lastWinsMembers members)
  | value => value

def lastWinsItems : List Json → List Json
  | [] => []
  | item :: rest => lastWins item :: lastWinsItems rest

def lastWinsMembers : List (String × Json) → List (String × Json)
  | [] => []
  | (name, value) :: rest =>
    if rest.any (·.1 = name) then lastWinsMembers rest
    else (name, lastWins value) :: lastWinsMembers rest

end

end Json

end ConceptLedger
