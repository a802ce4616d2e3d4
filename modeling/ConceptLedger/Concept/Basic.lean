import ConceptLedger.Binary64.Basic
import ConceptLedger.Data.SortedSet
import ConceptLedger.Instant.Basic
import ConceptLedger.Schema
import ConceptLedger.Uuid

/-!
Concepts: typed records with properties, a container, a revision stamp and a list of actors and
domains that are shut out. Two states of a concept are compared without their revision stamps, and
floats in them by value.
-/

namespace ConceptLedger

/-- The identifier of a concept. -/
abbrev ConceptId := Uuid

/-- An entry of an ordered list of references. -/
structure OrderedItem where
  key : Int64
  value : ConceptId
deriving DecidableEq

/-- The value of a property. -/
inductive PropertyValue where
  | null
  | bool (value : Bool)
  | int (value : Int64)
  | float (value : Binary64)
  | text (value : String)
  | timestamp (value : Instant)
  | ref (id : ConceptId)
  | refList (ids : List ConceptId)
  | orderedRefList (items : List OrderedItem)
deriving DecidableEq, Inhabited

namespace PropertyValue

/-- The truth value. -/
def bool? : PropertyValue → Option Bool
  | bool b => some b
  | _ => none

/-- The integer. -/
def int? : PropertyValue → Option Int64
  | int n => some n
  | _ => none

/-- The single reference. -/
def ref? : PropertyValue → Option ConceptId
  | ref id => some id
  | _ => none

/-- The instant. -/
def timestamp? : PropertyValue → Option Instant
  | timestamp t => some t
  | _ => none

/-- The identifiers that a value refers to, in order. -/
def referenced : PropertyValue → List ConceptId
  | ref id => [id]
  | refList ids => ids
  | orderedRefList items => items.map (·.value)
  | _ => []

/-- Equality of values, in which the two zeros are equal. -/
def agrees : PropertyValue → PropertyValue → Bool
  | float x, float y => x.agrees y
  | a, b => a = b

/-- Whether two values that may be absent agree. -/
def optionAgrees : Option PropertyValue → Option PropertyValue → Bool
  | none, none => true
  | some a, some b => a.agrees b
  | _, _ => false

end PropertyValue

/-- The properties of a concept, by name. -/
abbrev Properties := SortedMap String PropertyValue

/-- Whether two lists of properties have the same names and agreeing values. -/
def Properties.agree (a b : Properties) : Bool :=
  a.keys = b.keys && (a.values.zip b.values).all fun p => p.1.agrees p.2

/-- The actors and domains that a concept is closed to. -/
structure AccessOverride where
  excludedActors : SortedSet Uuid := SortedMap.empty
  excludedDomains : SortedSet Uuid := SortedMap.empty
deriving DecidableEq, Inhabited

namespace AccessOverride

/-- Whether an actor is shut out, by itself or by its active domain. -/
def excludes (o : AccessOverride) (actor : Uuid) (domain : Option Uuid) : Bool :=
  o.excludedActors.has actor || domain.any o.excludedDomains.has

/-- Whether nobody is shut out. -/
def isEmpty (o : AccessOverride) : Bool := o.excludedActors.isEmpty && o.excludedDomains.isEmpty

end AccessOverride

/-- A concept. -/
structure Concept where
  id : ConceptId
  conceptType : ConceptType
  revisionNumber : UInt64 := 0
  container : Option ConceptId := none
  properties : Properties := SortedMap.empty
  accessOverride : AccessOverride := {}
deriving DecidableEq, Inhabited

namespace Concept

/-- The value of a property. -/
def property? (c : Concept) (name : String) : Option PropertyValue := c.properties.find? name

/-- The concept with a property set. -/
def setProperty (c : Concept) (name : String) (value : PropertyValue) : Concept :=
  { c with properties := c.properties.insert name value }

/-- The concept without a property. -/
def unsetProperty (c : Concept) (name : String) : Concept :=
  { c with properties := c.properties.erase name }

/-- The concept that a property refers to as a single reference. -/
def ref? (c : Concept) (name : String) : Option ConceptId := (c.property? name).bind (·.ref?)

/-- Whether a concept is marked as deleted. -/
def isSoftDeleted (c : Concept) : Bool :=
  ((c.property? Property.isDeleted).bind (·.bool?)).getD false

/-- Whether two concepts are in the same state, revision stamps aside. -/
def sameStateAs (a b : Concept) : Bool :=
  a.id = b.id && a.conceptType = b.conceptType && a.container = b.container &&
    a.properties.agree b.properties && a.accessOverride = b.accessOverride

/-- Whether two concepts are in the same state and carry the same revision stamp. -/
def agrees (a b : Concept) : Bool := a.sameStateAs b && a.revisionNumber = b.revisionNumber

theorem property?_setProperty (c : Concept) (name other : String) (value : PropertyValue) :
    (c.setProperty name value).property? other =
      if other = name then some value else c.property? other :=
  SortedMap.find?_insert _ _ _ _

@[simp] theorem property?_setProperty_self (c : Concept) (name : String) (value : PropertyValue) :
    (c.setProperty name value).property? name = some value := by
  simp [property?_setProperty]

theorem property?_setProperty_ne (c : Concept) {name other : String} (value : PropertyValue)
    (apart : other ≠ name) : (c.setProperty name value).property? other = c.property? other := by
  simp [property?_setProperty, apart]

end Concept

end ConceptLedger
