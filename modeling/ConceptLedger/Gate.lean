import ConceptLedger.Operation

/-!
The permission gate: who may read and write which concept. A denied write is a failure, a denied
read only hides the concept.
-/

namespace ConceptLedger

/-- What is allowed on the container of a concept. -/
structure SecurityContext where
  containerReadable : Bool
  containerWritable : Bool
deriving DecidableEq, Inhabited

namespace SecurityContext

/-- The context of a concept that nothing contains. -/
def unrestricted : SecurityContext := ⟨true, true⟩

end SecurityContext

/-- A policy: two decisions about an actor, a concept, its partition and its container. -/
structure Gate where
  canRead : Actor → Concept → Partition → SecurityContext → Bool
  canWrite : Actor → Concept → OperationKind → Partition → SecurityContext → Bool

namespace Gate

/-- What a gate allows on a container, which is itself taken to be at the top. -/
def contextFor (gate : Gate) (actor : Actor) (p : Partition) (container : Option Concept) :
    SecurityContext :=
  match container with
  | none => .unrestricted
  | some c =>
    { containerReadable := gate.canRead actor c p .unrestricted
      containerWritable := gate.canWrite actor c .update p .unrestricted }

/-- Refuses a write that a gate does not allow. -/
def authorize (gate : Gate) (actor : Actor) (c : Concept) (kind : OperationKind) (p : Partition)
    (security : SecurityContext) : Except Failure Unit :=
  if gate.canWrite actor c kind p security then .ok ()
  else
    let denied := Fault.accessDenied actor.label c.conceptType.name c.id.text kind.name
    .error { denied.failure with partition := some p.name }

end Gate

/-- The rights of those whose role does not mention a type. -/
structure ScopeDefaults where
  canonical : AccessRight := .modify
  reference : AccessRight := .read
deriving DecidableEq, Inhabited

namespace ScopeDefaults

/-- The right that applies to a type: administrators may modify, else the role decides, else the
default of the scope. -/
def rightOf (d : ScopeDefaults) (actor : Actor) (t : ConceptType) (p : Partition) :
    AccessRight :=
  if actor.isAdmin then .modify
  else
    (actor.role.right? p.scope t).getD
      (match p.scope with
        | .canonical => d.canonical
        | .reference => d.reference)

/-- Whether an actor is let in at all: not shut out of the concept, and part of the partition. -/
def admits (actor : Actor) (c : Concept) (p : Partition) : Bool :=
  !c.accessOverride.excludes actor.id actor.activeDomain && actor.participates p

/-- Whether an actor's active domain owns a concept. -/
def ownedBy (actor : Actor) (c : Concept) : Bool :=
  match c.ref? Property.owner, actor.activeDomain with
  | some owner, some domain => owner = domain
  | _, _ => false

/-- The gate that decides by roles. -/
def gate (d : ScopeDefaults) : Gate where
  canRead actor c p security :=
    admits actor c p &&
      match d.rightOf actor c.conceptType p with
      | .none => false
      | .read | .modify | .modifyIfOwner => true
      | .sameAsContainer => security.containerReadable
  canWrite actor c _ p security :=
    admits actor c p &&
      match d.rightOf actor c.conceptType p with
      | .none | .read => false
      | .modify => true
      | .modifyIfOwner => ownedBy actor c
      | .sameAsContainer => security.containerWritable

end ScopeDefaults

end ConceptLedger
