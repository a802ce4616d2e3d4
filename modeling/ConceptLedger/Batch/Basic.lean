import ConceptLedger.Address
import ConceptLedger.Concept.Containment
import ConceptLedger.Hook.Basic
import ConceptLedger.Journal
import ConceptLedger.Store.Basic

/-!
The state of a batch while it runs inside one transaction: the view of the store, which concepts
were touched and whether they existed before, which were removed, and the revision taken in each
partition. A revision is taken once per partition, when the first change is stored.
-/

namespace ConceptLedger.Batch

/-- What stays fixed during a batch. -/
structure Setting where
  gate : Gate
  registry : Registry
  actor : Actor
  /-- The greatest number of cascades that one operation of a batch may cause. -/
  limit : Nat

/-- The first change of a batch to an address, and whether there was a concept before it. -/
structure Touch where
  address : Address
  existed : Bool
deriving DecidableEq

/-- The state of a running batch. -/
structure State (σ : Type) where
  view : σ
  ids : IdSupply
  /-- The touched addresses in the order of their first change. -/
  touched : List Touch := []
  /-- The type that a removed concept had, the last one if it was removed again. -/
  removed : SortedMap Address ConceptType := SortedMap.empty
  /-- The revisions that were taken. -/
  allocated : SortedMap Partition UInt64 := SortedMap.empty
  notes : List Note := []
  journal : Journal := []

variable {σ α : Type} [ConceptStore σ]

/-- A step of a batch. -/
abbrev BatchStep (σ α : Type) := Step (State σ) α

/-- A step on the view alone. -/
def onView (x : Step σ α) : BatchStep σ α :=
  Step.zoom State.view (fun v s => { s with view := v }) x

/-- Reports an event. -/
def report (e : Event) : BatchStep σ Unit :=
  Step.modify fun s => { s with journal := s.journal ++ [e] }

/-- The concept at an address, as the batch sees it now. -/
def find (p : Partition) (id : ConceptId) : BatchStep σ (Option Concept) :=
  Step.look fun s => ConceptStore.find? s.view p id

/-- The fault of a concept that is not stored. -/
def missing (p : Partition) (id : ConceptId) : Fault := .conceptNotFound id.text p.name

/-- The concept at an address, which must be stored. -/
def require (p : Partition) (id : ConceptId) : BatchStep σ Concept := do
  match ← find p id with
  | some c => pure c
  | none => Step.fault (missing p id)

/-- The stored container of a concept, if it names one that is stored. -/
def containerOf (p : Partition) (c : Concept) : BatchStep σ (Option Concept) :=
  match c.container with
  | some id => find p id
  | none => pure none

/-- Whether an address was touched by this batch. -/
def State.isTouched (s : State σ) (a : Address) : Bool := s.touched.any fun t => t.address = a

/-- Marks an address as touched. Only the first mark counts. -/
def touch (p : Partition) (id : ConceptId) (existed : Bool) : BatchStep σ Unit :=
  Step.modify fun s =>
    if s.isTouched ⟨p, id⟩ then s else { s with touched := s.touched ++ [⟨⟨p, id⟩, existed⟩] }

/-- The revision of the batch in a partition, which is taken when it is first needed. -/
def ownRevision (p : Partition) : BatchStep σ UInt64 := do
  match ← Step.gets fun s => s.allocated.find? p with
  | some revision => pure revision
  | none =>
    let revision ← onView (ConceptStore.nextRevision p)
    Step.modify fun s => { s with allocated := s.allocated.insert p revision }
    pure revision

/-- Stores a concept in the place of the one with its identifier, which must be there. -/
def replace (p : Partition) (c : Concept) : BatchStep σ Unit := do
  if ← onView (ConceptStore.update p c) then pure () else Step.fault (missing p c.id)

/-- Stores a changed state under the revision of the batch. A state equal to the stored one is not
written; the answer tells whether anything was. -/
def storeChanged (p : Partition) (former c : Concept) : BatchStep σ (Concept × Bool) := do
  if c.sameStateAs former then pure (c, false)
  else
    let revision ← ownRevision p
    let c := { c with revisionNumber := revision }
    touch p c.id true
    replace p c
    pure (c, true)

/-- Runs the hooks of a concept's type, and answers the concept as they leave it. -/
def invoke (env : Setting) (p : Partition) (security : SecurityContext) (occasion : Occasion)
    (c : Concept) (container : Option Concept) : BatchStep σ (Concept × HookOutcome) := fun s =>
  if env.registry.hasHooks c.conceptType then
    let setting : HookSetting :=
      { partition := p, actor := env.actor, time := ConceptStore.time s.view, security, container
        lookup := ConceptStore.find? s.view, extent := ConceptStore.extent s.view }
    match env.registry.invoke occasion setting { concept := c, ids := s.ids } with
    | (r, h) =>
      (r.map fun outcome => (h.concept, outcome),
        { s with ids := h.ids, notes := s.notes ++ h.notes })
  else (.ok (c, {}), s)

end ConceptLedger.Batch
