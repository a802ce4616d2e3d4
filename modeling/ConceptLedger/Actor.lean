import ConceptLedger.Data.SortedSet
import ConceptLedger.Partition
import ConceptLedger.Schema

/-!
Actors, their roles and the rights that a role gives on each type of concept.
-/

namespace ConceptLedger

/-- What an actor may do with concepts of a type. -/
inductive AccessRight where
  | none
  | read
  | modify
  | modifyIfOwner
  | sameAsContainer
deriving DecidableEq, Inhabited

namespace AccessRight

/-- All rights. -/
def all : List AccessRight := [.none, .read, .modify, .modifyIfOwner, .sameAsContainer]

/-- The written name of a right. -/
def name : AccessRight → String
  | none => "none"
  | read => "read"
  | modify => "modify"
  | modifyIfOwner => "modify_if_owner"
  | sameAsContainer => "same_as_container"

/-- The right of a written name. -/
def ofName? (name : String) : Option AccessRight := all.find? fun r => r.name = name

end AccessRight

/-- Rights on types of concept. -/
abbrev Rights := SortedMap ConceptType AccessRight

/-- A role: rights in reference data and rights in models. -/
structure Role where
  name : String := ""
  personRights : Rights := SortedMap.empty
  participantRights : Rights := SortedMap.empty
deriving DecidableEq, Inhabited

namespace Role

/-- The right that a role gives on a type in a scope, if it mentions the type. -/
def right? (role : Role) (scope : Scope) (t : ConceptType) : Option AccessRight :=
  match scope with
  | .reference => role.personRights.find? t
  | .canonical => role.participantRights.find? t

end Role

/-- Someone who reads and writes concepts. -/
structure Actor where
  id : Uuid
  name : String
  activeDomain : Option Uuid := none
  participations : SortedSet String := SortedMap.empty
  isAdmin : Bool := false
  role : Role := {}
deriving DecidableEq, Inhabited

namespace Actor

/-- The actor with the participation in a partition. -/
def joining (a : Actor) (p : Partition) : Actor :=
  { a with participations := a.participations.add p.name }

/-- Whether an actor takes part in a partition: everyone in reference data, administrators and
named participants in models. -/
def participates (a : Actor) (p : Partition) : Bool :=
  match p.scope with
  | .reference => true
  | .canonical => a.isAdmin || a.participations.has p.name

/-- The name by which failures call an actor. -/
def label (a : Actor) : String := s!"{a.name} ({a.id.text})"

end Actor

end ConceptLedger
