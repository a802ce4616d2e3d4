import ConceptLedger.Concept.Containment
import ConceptLedger.Gate
import ConceptLedger.Journal
import ConceptLedger.Store.Basic

/-!
Reading through the permission gate. A shallow read answers the requested concepts that may be
read; a deep read goes on through the containment properties of every concept it answers. What may
not be read is left out and reported in the journal.
-/

namespace ConceptLedger

/-- Whether a read takes the current concepts or the newest logged states. -/
inductive ReadMode where
  | live
  | cached
deriving DecidableEq, Inhabited

/-- How a read is to be done. -/
structure ReadOptions where
  mode : ReadMode := .live
  excludeSoftDeleted : Bool := false
deriving DecidableEq, Inhabited

/-- An actor reading in a partition of a view. -/
structure Reader (σ : Type) where
  view : σ
  gate : Gate
  actor : Actor
  partition : Partition
  options : ReadOptions

/-- A step that may report events. -/
abbrev ReadStep (α : Type) := Step Journal α

namespace Reader

variable {σ : Type} [ConceptStore σ]

/-- The found concepts in the order of the requested identifiers, each one once. Of several with
one identifier the last counts. -/
def pick : List ConceptId → List Concept → List Concept
  | [], _ => []
  | id :: rest, found =>
    match (found.filter fun c => c.id = id).getLast? with
    | some c => c :: pick rest (found.filter fun c => c.id ≠ id)
    | none => pick rest found

/-- Reads concepts of a type, or of any type, without asking the gate. -/
def load (r : Reader σ) (t : Option ConceptType) (ids : List ConceptId) :
    Except Failure (List Concept) :=
  if ids.isEmpty then .ok []
  else
    let found :=
      match r.options.mode with
      | .live => ConceptStore.read r.view r.partition t (some ids)
      | .cached =>
        (ConceptStore.readCached r.view r.partition ids).map fun (found : List Concept) =>
          found.filter fun c => t.all fun t => c.conceptType = t
    found.map (pick ids)

/-- What the gate allows on the container of a concept, as it is stored now. -/
def contextOf (r : Reader σ) (c : Concept) : Except Failure SecurityContext :=
  match c.container with
  | none => .ok (r.gate.contextFor r.actor r.partition none)
  | some id =>
    (ConceptStore.find? r.view r.partition id).map (r.gate.contextFor r.actor r.partition)

/-- Whether a concept is not asked for because it is marked as deleted. -/
def passesOver (r : Reader σ) (c : Concept) : Bool :=
  r.options.excludeSoftDeleted && c.isSoftDeleted

/-- Whether the gate lets the actor read a concept. -/
def permits (r : Reader σ) (security : SecurityContext) (c : Concept) : Bool :=
  r.gate.canRead r.actor c r.partition security

/-- Whether a concept is answered. -/
def admits (r : Reader σ) (security : SecurityContext) (c : Concept) : Bool :=
  !r.passesOver c && r.permits security c

/-- The events of concepts that the gate holds back. -/
def denials (r : Reader σ) (security : SecurityContext) (cs : List Concept) : Journal :=
  (cs.filter fun c => !r.passesOver c && !r.permits security c).map fun c =>
    .readDenied r.partition c r.actor.id

/-- The concepts that are answered; the others are reported. -/
def sift (r : Reader σ) (security : SecurityContext) (cs : List Concept) :
    ReadStep (List Concept) := fun journal =>
  (.ok (cs.filter (r.admits security)), journal ++ r.denials security cs)

/-- The concepts that are answered, each under the given context or that of its container. -/
def siftEach (r : Reader σ) (security : Option SecurityContext) :
    List Concept → ReadStep (List Concept)
  | [] => pure []
  | c :: rest => do
    let context ← Step.lift (match security with
      | some context => .ok context
      | none => r.contextOf c)
    let first ← r.sift context [c]
    let later ← siftEach r security rest
    pure (first ++ later)

/-- The requested concepts that may be read. -/
def shallow (r : Reader σ) (ids : List ConceptId) (security : Option SecurityContext) :
    ReadStep (List Concept) := do
  let found ← Step.lift (r.load none ids)
  r.siftEach security found

/-- The requested concepts of a type that may be read under a given context. -/
def resolve (r : Reader σ) (t : ConceptType) (ids : List ConceptId)
    (security : SecurityContext) : ReadStep (List Concept) := do
  let found ← Step.lift (r.load (some t) ids)
  r.sift security found

/-- Children still to be read: those of one containment property of a concept. -/
structure Pending where
  target : ConceptType
  ids : List ConceptId
  security : SecurityContext
deriving DecidableEq

/-- A deep read in progress: the concepts answered so far and the children still to be read. -/
structure Progress where
  found : List Concept := []
  pending : List Pending := []

/-- The children of a concept that is answered, property by property. Its container does not
matter for reading them, as the concept itself may be read. -/
def children (r : Reader σ) (parent : Concept) : Except Failure (List Pending) :=
  if parent.conceptType.containment.isEmpty then .ok []
  else
    (r.contextOf parent).map fun context =>
      let security : SecurityContext :=
        { containerReadable := true
          containerWritable := r.gate.canWrite r.actor parent .update r.partition context }
      (parent.conceptType.containment.map fun p =>
        ⟨p.target, parent.members p, security⟩).filter fun (p : Pending) => !p.ids.isEmpty

/-- Whether a concept is among those answered. -/
def Progress.has (s : Progress) (id : ConceptId) : Bool := s.found.any fun c => c.id = id

/-- Adds a concept to those answered, unless it is there already. -/
def accept (r : Reader σ) (s : Progress) (c : Concept) : Except Failure Progress :=
  if s.has c.id then .ok s
  else
    (r.children c).map fun pending =>
      { found := s.found ++ [c], pending := s.pending ++ pending }

/-- Reads pending children until there are none. Every concept that is answered adds at most five
lists of children, which bounds the number of turns. -/
def descend (r : Reader σ) : Nat → Progress → ReadStep (List Concept)
  | 0, s => pure s.found
  | turns + 1, s =>
    match s.pending with
    | [] => pure s.found
    | next :: pending => do
      let fresh := next.ids.filter fun id => !s.has id
      let here ← r.resolve next.target fresh next.security
      let s ← Step.lift (here.foldlM r.accept { s with pending })
      descend r turns s

/-- The requested concepts that may be read, followed by all they contain that may be read. -/
def deep (r : Reader σ) (ids : List ConceptId) (security : Option SecurityContext) :
    ReadStep (List Concept) := do
  let top ← r.shallow ids security
  let start ← Step.lift (top.foldlM r.accept {})
  r.descend (5 * ConceptStore.extent r.view + 1) start

end Reader

end ConceptLedger
