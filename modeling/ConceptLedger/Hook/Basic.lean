import ConceptLedger.Gate
import ConceptLedger.IdSupply
import ConceptLedger.Step

/-!
Hooks: rules that run around each change to a concept of their type. A hook may veto by failing,
change the concept before it is stored, redirect the operation by a directive, and ask for
cascades, which run after the operation through the same pipeline. Hooks read but never write.
-/

namespace ConceptLedger

/-- When hooks run. -/
inductive Phase where
  | beforeCreate
  | afterCreate
  | beforeUpdate
  | afterUpdate
  | beforeDelete
  | afterDelete
deriving DecidableEq

namespace Phase

/-- All phases. -/
def all : List Phase :=
  [.beforeCreate, .afterCreate, .beforeUpdate, .afterUpdate, .beforeDelete, .afterDelete]

/-- The written name of a phase. -/
def name : Phase → String
  | beforeCreate => "before_create"
  | afterCreate => "after_create"
  | beforeUpdate => "before_update"
  | afterUpdate => "after_update"
  | beforeDelete => "before_delete"
  | afterDelete => "after_delete"

/-- The phase of a written name. -/
def ofName? (name : String) : Option Phase := all.find? fun p => p.name = name

/-- The name of a phase in messages. -/
def title : Phase → String
  | beforeCreate => "BeforeCreate"
  | afterCreate => "AfterCreate"
  | beforeUpdate => "BeforeUpdate"
  | afterUpdate => "AfterUpdate"
  | beforeDelete => "BeforeDelete"
  | afterDelete => "AfterDelete"

/-- Whether a phase comes before the change. -/
def isBefore : Phase → Bool
  | beforeCreate | beforeUpdate | beforeDelete => true
  | _ => false

end Phase

/-- A phase together with the stored state that the change starts from. -/
inductive Occasion where
  | beforeCreate
  | afterCreate
  | beforeUpdate (former : Concept)
  | afterUpdate (former : Concept)
  | beforeDelete (former : Concept)
  | afterDelete (former : Concept)

namespace Occasion

/-- The phase of an occasion. -/
def phase : Occasion → Phase
  | beforeCreate => .beforeCreate
  | afterCreate => .afterCreate
  | beforeUpdate _ => .beforeUpdate
  | afterUpdate _ => .afterUpdate
  | beforeDelete _ => .beforeDelete
  | afterDelete _ => .afterDelete

/-- The stored state that the change starts from; a creation has none. -/
def former? : Occasion → Option Concept
  | beforeCreate | afterCreate => none
  | beforeUpdate c | afterUpdate c | beforeDelete c | afterDelete c => some c

/-- The occasion of a phase. Updates and deletions need the former state. -/
def of (phase : Phase) (former : Option Concept) : Except Failure Occasion :=
  match phase, former with
  | .beforeCreate, _ => .ok beforeCreate
  | .afterCreate, _ => .ok afterCreate
  | .beforeUpdate, some c => .ok (beforeUpdate c)
  | .afterUpdate, some c => .ok (afterUpdate c)
  | .beforeDelete, some c => .ok (beforeDelete c)
  | .afterDelete, some c => .ok (afterDelete c)
  | phase, none => ConceptLedger.fail
      (.internal s!"{phase.title} invoked without the original state")

end Occasion

/-- What becomes of the operation; the later directive is the stronger one. -/
inductive Directive where
  | proceed
  | convertToUpdate
  | skip
deriving DecidableEq, Inhabited

namespace Directive

/-- The name of a directive. -/
def name : Directive → String
  | proceed => "Proceed"
  | convertToUpdate => "ConvertToUpdate"
  | skip => "Skip"

/-- The stronger of two directives. -/
def strongest (a b : Directive) : Directive :=
  match a, b with
  | skip, _ | _, skip => skip
  | convertToUpdate, _ | _, convertToUpdate => convertToUpdate
  | proceed, proceed => proceed

end Directive

/-- The answer of hooks: a directive, and cascades in the order in which they are to run. -/
structure HookOutcome where
  directive : Directive := .proceed
  cascades : List Cascade := []
deriving DecidableEq, Inhabited

namespace HookOutcome

/-- The answers of two hooks, one after the other. -/
def merge (a b : HookOutcome) : HookOutcome :=
  ⟨a.directive.strongest b.directive, a.cascades ++ b.cascades⟩

end HookOutcome

/-- What a hook is told about the change, and where it may look things up. -/
structure HookSetting where
  partition : Partition
  actor : Actor
  time : Instant
  security : SecurityContext
  container : Option Concept
  /-- The concept of an identifier as the transaction sees it. -/
  lookup : Partition → ConceptId → Except Failure (Option Concept)
  /-- At least the number of different concepts that can be looked up. -/
  extent : Nat

namespace HookSetting

/-- The concepts of identifiers in the partition of the change, without those that are missing. -/
def lookupLocal (s : HookSetting) (ids : List ConceptId) : Except Failure (List Concept) :=
  (ids.mapM (s.lookup s.partition)).map (·.filterMap id)

end HookSetting

/-- What an observing hook puts on record. -/
inductive Note where
  | seen (tag : String) (phase : Phase) (concept : Concept) (setting : HookSetting)
    (former : Option Concept)
  | looked (tag : String) (found : List Concept)

/-- What a hook works on: the concept, new identifiers, and notes. -/
structure HookState where
  concept : Concept
  ids : IdSupply
  notes : List Note := []

/-- A rule that runs around changes. -/
abbrev Hook := Occasion → HookSetting → Step HookState HookOutcome

namespace Hook

/-- A new identifier. -/
def newId : Step HookState ConceptId := fun s => (.ok s.ids.next, { s with ids := s.ids.rest })

/-- The concept at hand. -/
def concept : Step HookState Concept := Step.gets (·.concept)

/-- Sets a property of the concept at hand. -/
def setProperty (name : String) (value : PropertyValue) : Step HookState Unit :=
  Step.modify fun s => { s with concept := s.concept.setProperty name value }

/-- A hook after the change works on a copy: the concept stays as it was stored. -/
def confined (hook : Hook) : Hook := fun occasion setting s =>
  match hook occasion setting s with
  | (r, s') => (r, if occasion.phase.isBefore then s' else { s' with concept := s.concept })

/-- Runs hooks in order, up to the first failure, and merges their answers. -/
def runAll (hooks : List Hook) : Hook := fun occasion setting =>
  match hooks with
  | [] => pure {}
  | hook :: rest => do
    let first ← hook.confined occasion setting
    let later ← runAll rest occasion setting
    pure (first.merge later)

end Hook

/-- The hooks of each type, in the order in which they were registered. -/
structure Registry where
  hooks : List (ConceptType × Hook)

namespace Registry

/-- The registry without hooks. -/
def empty : Registry := ⟨[]⟩

/-- The hooks of a type. -/
def hooksFor (r : Registry) (t : ConceptType) : List Hook :=
  (r.hooks.filter fun h => h.1 = t).map (·.2)

/-- Whether a type has hooks. -/
def hasHooks (r : Registry) (t : ConceptType) : Bool := !(r.hooksFor t).isEmpty

/-- Runs the hooks of the concept's type. Directives count only before the change. -/
def invoke (r : Registry) (occasion : Occasion) (setting : HookSetting) :
    Step HookState HookOutcome := do
  let c ← Hook.concept
  let outcome ← Hook.runAll (r.hooksFor c.conceptType) occasion setting
  pure (if occasion.phase.isBefore then outcome else { outcome with directive := .proceed })

/-- Runs the hooks of the concept's type in a phase. Where there are hooks to run, updates and
deletions need the former state. -/
def invokeIn (r : Registry) (phase : Phase) (former : Option Concept) (setting : HookSetting) :
    Step HookState HookOutcome := do
  let c ← Hook.concept
  if r.hasHooks c.conceptType then
    let occasion ← Step.lift (Occasion.of phase former)
    r.invoke occasion setting
  else pure {}

end Registry

end ConceptLedger
