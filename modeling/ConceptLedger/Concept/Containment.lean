import ConceptLedger.Concept.Basic
import ConceptLedger.Data.StableSort
import ConceptLedger.Failure

/-!
The containment lists of a concept: what they hold, which shape they must have, how a child is
put into its container's list and taken out again, and that an update leaves them alone.
-/

namespace ConceptLedger.Concept

open PropertyValue

/-- The children that a containment property lists, with their order keys. -/
def entries (c : Concept) (p : Containment) : List (ConceptId × Option Int64) :=
  match c.property? p.name with
  | some (refList ids) => ids.map (·, none)
  | some (orderedRefList items) => items.map fun i => (i.value, some i.key)
  | _ => []

/-- The children that a containment property lists. -/
def members (c : Concept) (p : Containment) : List ConceptId := (c.entries p).map (·.1)

/-- All children, property by property in declaration order. -/
def childIds (c : Concept) : List ConceptId := c.conceptType.containment.flatMap c.members

/-- The list without entries that a containment property takes. -/
def emptyList (p : Containment) : PropertyValue :=
  if p.ordered then orderedRefList [] else refList []

/-- The concept with an empty list in every containment property. -/
def withoutChildren (c : Concept) : Concept :=
  c.conceptType.containment.foldl (fun c p => c.setProperty p.name (emptyList p)) c

/-- What a containment property must hold, if the value at hand is something else. -/
def containmentComplaint? (p : Containment) : Option PropertyValue → Option String
  | none => none
  | some (refList _) => if p.ordered then some "expected an ordered reference list" else none
  | some (orderedRefList _) => if p.ordered then none else some "expected a reference list"
  | some _ =>
    some (if p.ordered then "expected an ordered reference list" else "expected a reference list")

/-- What an association property must hold, if the value at hand is something else. -/
def associationComplaint? : Option PropertyValue → Option String
  | none | some null | some (ref _) | some (refList _) => none
  | some _ => some "expected a reference"

/-- The first property whose value has the wrong shape, with what is expected there. -/
def shapeComplaint? (c : Concept) : Option (String × String) :=
  (c.conceptType.containment.findSome? fun p =>
      (containmentComplaint? p (c.property? p.name)).map (p.name, ·)).or
    (c.conceptType.associations.findSome? fun p =>
      (associationComplaint? (c.property? p.name)).map (p.name, ·))

/-- Refuses a concept whose containment properties are not lists of their kind or whose
associations are not references. -/
def checkShape (c : Concept) : Except Failure Unit :=
  match c.shapeComplaint? with
  | some (property, reason) => fail (.invalidProperty c.id.text property reason)
  | none => .ok ()

/-- Whether two lists have the same members, order and repetition aside. -/
def sameMembers (a b : List ConceptId) : Bool :=
  SortedSet.ofMembers a = SortedSet.ofMembers b

/-- Carries one containment property over from the stored state into an update. A list that the
update leaves out is kept; one that it gives must have the stored members. -/
def withStoredList (former c : Concept) (p : Containment) : Except Failure Concept :=
  match c.property? p.name with
  | none =>
    match former.property? p.name with
    | some stored => .ok (c.setProperty p.name stored)
    | none => .ok c
  | some _ =>
    if sameMembers (c.members p) (former.members p) then .ok c
    else
      fail (.containmentImmutable c.id.text p.name
        "children are added by create and removed by delete")

/-- Carries all containment properties over from the stored state into an update. -/
def withStoredChildren (former c : Concept) : Except Failure Concept :=
  c.conceptType.containment.foldlM (withStoredList former) c

/-- The key for a new entry of an ordered list: the given one, or one above the greatest. -/
def nextKey? (given : Option Int64) (items : List OrderedItem) : Option Int64 :=
  match given, (items.map (·.key)).max? with
  | some key, _ => some key
  | none, none => some 1
  | none, some last => if last = Int64.maxValue then none else some (last + 1)

/-- The entries of an ordered list; other values count as empty. -/
def orderedItems : Option PropertyValue → List OrderedItem
  | some (orderedRefList items) => items
  | _ => []

/-- The containment list `p` of a container with one more child, by order key in an ordered list
and at the end otherwise. -/
def extendedList (container : Concept) (p : Containment) (child : ConceptId)
    (orderKey : Option Int64) : Except Failure PropertyValue :=
  let refuse (reason : String) := fail (.invalidProperty container.id.text p.name reason)
  if p.ordered then
    let items := orderedItems (container.property? p.name)
    match nextKey? orderKey items with
    | none => refuse "no order key left after the last sibling"
    | some key =>
      if items.any fun i => i.key = key then refuse "order key already taken"
      else .ok (orderedRefList (sortByKey (·.key) (items ++ [⟨key, child⟩])))
  else if orderKey.isSome then refuse "property is not ordered"
  else
    let ids := ((container.property? p.name).map referenced).getD []
    .ok (refList (ids ++ [child]))

/-- The container with a child entered into its list for the child's type. -/
def attach (container child : Concept) (orderKey : Option Int64) : Except Failure Concept :=
  match container.conceptType.containmentFor? child.conceptType with
  | none =>
    fail (.invalidContainment child.id.text child.conceptType.name container.conceptType.name)
  | some p =>
    (extendedList container p child.id orderKey).map (container.setProperty p.name)

/-- A list of references without one child; any other value and a list without it is kept. -/
def withoutChild (child : ConceptId) : PropertyValue → PropertyValue
  | refList ids => refList (ids.filter (· ≠ child))
  | orderedRefList items => orderedRefList (items.filter (·.value ≠ child))
  | value => value

/-- The container with a child taken out of one of its lists. -/
def detachFrom (child : ConceptId) (container : Concept) (p : Containment) : Concept :=
  match container.property? p.name with
  | some value => container.setProperty p.name (withoutChild child value)
  | none => container

/-- The container with a child taken out of all its lists. -/
def detach (container : Concept) (child : ConceptId) : Concept :=
  container.conceptType.containment.foldl (detachFrom child) container

end ConceptLedger.Concept
