import ConceptLedger.Gate
import ConceptLedger.Wire.Concept

/-!
The wire format of actors, their roles and the default rights.
-/

namespace ConceptLedger.Wire

/-- Reads the name of a right. -/
def accessRight? : Json → Option AccessRight := named? AccessRight.ofName?

/-- Writes the name of a right. -/
def ofAccessRight (r : AccessRight) : Json := .str r.name

/-- Reads rights by type. -/
def rights? : Json → Option Rights := map? ConceptType.ofName? accessRight?

/-- Writes rights by type. -/
def ofRights (r : Rights) : Json := ofMap ConceptType.name ofAccessRight r

/-- Reads a role. -/
def role? (j : Json) : Option Role :=
  match j.record? ["name", "person_rights", "participant_rights"] with
  | some [name, person, participant] => do
    some ⟨← defaulted Json.string? "" name, ← defaulted rights? SortedMap.empty person,
      ← defaulted rights? SortedMap.empty participant⟩
  | _ => none

/-- Writes a role. -/
def ofRole (r : Role) : Json :=
  .obj [("name", .str r.name), ("person_rights", ofRights r.personRights),
    ("participant_rights", ofRights r.participantRights)]

/-- The fields of an actor. -/
def actorFields : List String :=
  ["id", "name", "active_domain", "participations", "is_admin", "role"]

/-- Reads an actor. -/
def actor? (j : Json) : Option Actor :=
  match j.record? actorFields with
  | some [id, name, domain, participations, admin, role] => do
    some
      { id := ← required uuid? id
        name := ← required Json.string? name
        activeDomain := ← optional uuid? domain
        participations := ← defaulted (set? Json.string?) SortedMap.empty participations
        isAdmin := ← defaulted Json.bool? false admin
        role := ← defaulted role? {} role }
  | _ => none

/-- Writes an actor. -/
def ofActor (a : Actor) : Json :=
  .obj [("id", ofUuid a.id), ("name", .str a.name),
    ("active_domain", ofOption ofUuid a.activeDomain),
    ("participations", ofSet .str a.participations), ("is_admin", .bool a.isAdmin),
    ("role", ofRole a.role)]

/-- Reads default rights, both of which must be given. -/
def scopeDefaults? (j : Json) : Option ScopeDefaults :=
  match j.record? ["canonical", "reference"] with
  | some [canonical, reference] => do
    some ⟨← required accessRight? canonical, ← required accessRight? reference⟩
  | _ => none

/-- Writes default rights. -/
def ofScopeDefaults (d : ScopeDefaults) : Json :=
  .obj [("canonical", ofAccessRight d.canonical), ("reference", ofAccessRight d.reference)]

end ConceptLedger.Wire
