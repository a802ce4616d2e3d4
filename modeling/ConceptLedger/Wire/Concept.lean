import ConceptLedger.Concept.Edit
import ConceptLedger.Partition
import ConceptLedger.Wire.Basic

/-!
The wire format of concepts, which is also that of logged states.
-/

namespace ConceptLedger.Wire

/-- Reads the name of a type. -/
def conceptType? : Json → Option ConceptType := named? ConceptType.ofName?

/-- Reads the name of a partition. -/
def partition? (j : Json) : Option Partition := j.string?.bind Partition.read?

/-- Writes the name of a type. -/
def ofConceptType (t : ConceptType) : Json := .str t.name

/-- Writes the name of a partition. -/
def ofPartition (p : Partition) : Json := .str p.name

/-- Reads an entry of an ordered list. -/
def orderedItem? (j : Json) : Option OrderedItem :=
  match j.record? ["key", "value"] with
  | some [key, value] => do some ⟨← required int64? key, ← required uuid? value⟩
  | _ => none

/-- Writes an entry of an ordered list. -/
def ofOrderedItem (i : OrderedItem) : Json :=
  .obj [("key", ofInt64 i.key), ("value", ofUuid i.value)]

/-- Reads the value of a property of a kind. -/
def valueOfKind? (kind : String) (value : Option Json) : Option PropertyValue :=
  match kind with
  | "null" =>
    match value with
    | none | some .null => some .null
    | _ => none
  | "bool" => (required Json.bool? value).map .bool
  | "int" => (required int64? value).map .int
  | "float" => (required float? value).map .float
  | "text" => (required Json.string? value).map .text
  | "timestamp" => (required instant? value).map .timestamp
  | "ref" => (required uuid? value).map .ref
  | "ref_list" => (required (list? uuid?) value).map .refList
  | "ordered_ref_list" => (required (list? orderedItem?) value).map .orderedRefList
  | _ => none

/-- Reads the value of a property, whose kind stands beside it. -/
def propertyValue? (j : Json) : Option PropertyValue :=
  match j.record? ["kind", "value"] with
  | some [some (.str kind), value] =>
    if value.isNone && j.items?.isSome then none else valueOfKind? kind value
  | _ => none

/-- Writes the value of a property. -/
def ofPropertyValue : PropertyValue → Json
  | .null => .obj [("kind", .str "null")]
  | .bool b => .obj [("kind", .str "bool"), ("value", .bool b)]
  | .int n => .obj [("kind", .str "int"), ("value", ofInt64 n)]
  | .float x => .obj [("kind", .str "float"), ("value", .float x)]
  | .text s => .obj [("kind", .str "text"), ("value", .str s)]
  | .timestamp t => .obj [("kind", .str "timestamp"), ("value", ofInstant t)]
  | .ref id => .obj [("kind", .str "ref"), ("value", ofUuid id)]
  | .refList ids => .obj [("kind", .str "ref_list"), ("value", ofList ofUuid ids)]
  | .orderedRefList items =>
    .obj [("kind", .str "ordered_ref_list"), ("value", ofList ofOrderedItem items)]

/-- Reads properties. -/
def properties? : Json → Option Properties := map? some propertyValue?

/-- Writes properties. -/
def ofProperties (p : Properties) : Json := ofMap id ofPropertyValue p

/-- Reads who is shut out of a concept. -/
def accessOverride? (j : Json) : Option AccessOverride :=
  match j.record? ["excluded_actors", "excluded_domains"] with
  | some [actors, domains] => do
    some ⟨← defaulted (set? uuid?) SortedMap.empty actors,
      ← defaulted (set? uuid?) SortedMap.empty domains⟩
  | _ => none

/-- Writes who is shut out of a concept; empty sets are left out. -/
def ofAccessOverride (o : AccessOverride) : Json :=
  Json.objOf
    [Json.memberIf (!o.excludedActors.isEmpty) "excluded_actors" (ofSet ofUuid o.excludedActors),
      Json.memberIf (!o.excludedDomains.isEmpty) "excluded_domains"
        (ofSet ofUuid o.excludedDomains)]

/-- The fields of a concept. -/
def conceptFields : List String :=
  ["id", "concept_type", "revision_number", "container", "properties", "access_override"]

/-- Reads a concept. -/
def concept? (j : Json) : Option Concept :=
  match j.record? conceptFields with
  | some [id, type, revision, container, properties, override] => do
    some
      { id := ← required uuid? id
        conceptType := ← required conceptType? type
        revisionNumber := ← defaulted word? 0 revision
        container := ← optional uuid? container
        properties := ← defaulted properties? SortedMap.empty properties
        accessOverride := ← defaulted accessOverride? {} override }
  | _ => none

/-- Writes a concept. -/
def ofConcept (c : Concept) : Json :=
  Json.objOf
    [some ("id", ofUuid c.id), some ("concept_type", ofConceptType c.conceptType),
      some ("revision_number", ofWord c.revisionNumber),
      c.container.map fun id => ("container", ofUuid id),
      some ("properties", ofProperties c.properties),
      Json.memberIf (!c.accessOverride.isEmpty) "access_override"
        (ofAccessOverride c.accessOverride)]

/-- Reads an edit. Only the container tells `null` from a field that is left out. -/
def conceptEdit? (j : Json) : Option ConceptEdit := do
  some
    { set := (← optional properties? (j.member? "set")).getD SortedMap.empty
      unset := (← optional (list? Json.string?) (j.member? "unset")).getD []
      revision := ← optional word? (j.member? "revision")
      conceptType := ← optional conceptType? (j.member? "concept_type")
      accessOverride := ← optional accessOverride? (j.member? "access_override")
      container := ← (match j.member? "container" with
        | none => some none
        | some value => (optional uuid? (some value)).map some) }

end ConceptLedger.Wire
