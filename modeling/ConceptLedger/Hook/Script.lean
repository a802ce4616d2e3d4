import ConceptLedger.Hook.Standard
import ConceptLedger.Wire.Operation

/-!
Hooks given as data: a list of actions that run in one phase. Scripts observe what hooks are told,
and try out vetoes, directives and cascades without a rule of their own.
-/

namespace ConceptLedger

/-- One action of a scripted hook. -/
inductive HookAction where
  | observe (tag : String)
  | set (name : String) (value : PropertyValue)
  | append (name text : String)
  | look (tag : String) (id : ConceptId) (partition : Option Partition)
  | veto (rule conceptId operation reason : String)
  | direct (directive : Directive)
  | cascade (cascade : Cascade)

namespace HookAction

/-- Text put behind a text property; any other value is replaced. -/
def extendText (c : Concept) (name text : String) : PropertyValue :=
  match c.property? name with
  | some (.text before) => .text (before ++ text)
  | _ => .text text

/-- Runs an action on the answer so far. -/
def run (action : HookAction) (occasion : Occasion) (setting : HookSetting)
    (outcome : HookOutcome) : Step HookState HookOutcome :=
  match action with
  | observe tag => do
    Step.modify fun s =>
      { s with notes := s.notes ++
          [.seen tag occasion.phase s.concept setting occasion.former?] }
    pure outcome
  | set name value => do
    Hook.setProperty name value
    pure outcome
  | append name text => do
    let c ← Hook.concept
    Hook.setProperty name (extendText c name text)
    pure outcome
  | look tag id p => do
    let found ← Step.lift (setting.lookup (p.getD setting.partition) id)
    Step.modify fun s => { s with notes := s.notes ++ [.looked tag found.toList] }
    pure outcome
  | veto rule id operation reason => Step.fault (.lifecycleVeto rule id operation reason)
  | direct directive => pure { outcome with directive }
  | cascade c => pure { outcome with cascades := outcome.cascades ++ [c] }

end HookAction

/-- The hook that runs actions in one phase and proceeds in every other. -/
def Hook.scripted (phase : Phase) (actions : List HookAction) : Hook := fun occasion setting =>
  if occasion.phase = phase then
    actions.foldlM (fun outcome action => action.run occasion setting outcome) {}
  else pure {}

/-- The hook that does nothing. -/
def Hook.idle : Hook := fun _ _ => pure {}

namespace Wire

/-- Reads an action. -/
def hookAction? (j : Json) : Option HookAction := do
  let text (name : String) : Option String := (j.member? name).bind Json.string?
  match ← text "do" with
  | "trace" => some (.observe (← text "tag"))
  | "set" => some (.set (← text "name") (← required propertyValue? (j.member? "value")))
  | "append" => some (.append (← text "name") (← text "text"))
  | "look" =>
    some (.look (← text "tag") (← required uuid? (j.member? "id"))
      (← optional partition? (j.member? "partition")))
  | "veto" =>
    some (.veto (← text "rule") (← text "concept_id") (← text "operation") (← text "reason"))
  | "convert" => some (.direct .convertToUpdate)
  | "skip" => some (.direct .skip)
  | "cascade" =>
    some (.cascade ⟨← optional partition? (j.member? "partition"),
      ← required operation? (j.member? "operation")⟩)
  | _ => none

/-- Reads a hook with its type: one of the rules by name, an idle one, or a script. -/
def hookEntry? (j : Json) : Option (ConceptType × Hook) :=
  match j.member? "builtin" with
  | some (.str "EngineeringModelSetup") =>
    some (.engineeringModelSetup, EngineeringModelSetup.hook)
  | some (.str "IterationSetup") => some (.iterationSetup, IterationSetup.hook)
  | some (.str "noop") => (required conceptType? (j.member? "type")).map (·, Hook.idle)
  | some _ => none
  | none => do
    let type ← required conceptType? (j.member? "type")
    let phase ← (← (j.member? "phase")).string?.bind Phase.ofName?
    let actions ← required (list? hookAction?) (j.member? "actions")
    some (type, Hook.scripted phase actions)

/-- Reads a registry: the standard one when nothing is given. -/
def registry? : Option Json → Option Registry
  | none | some .null => some Registry.standard
  | some j => (list? hookEntry? j).map Registry.mk

/-- Writes what a hook put on record. -/
def ofNote : Note → Json
  | .seen tag phase c setting former =>
    .obj [("tag", .str tag), ("before", .bool phase.isBefore), ("concept", ofConcept c),
      ("container", ofOption ofConcept setting.container),
      ("original", ofOption ofConcept former), ("partition", ofPartition setting.partition),
      ("actor", .str setting.actor.name), ("read", .bool setting.security.containerReadable),
      ("write", .bool setting.security.containerWritable)]
  | .looked tag found => .obj [("tag", .str tag), ("found", ofList ofConcept found)]

/-- Writes the answer of hooks. -/
def ofHookOutcome (o : HookOutcome) : Json :=
  let ofCascade (c : Cascade) : Json :=
    .obj [("partition", ofOption ofPartition c.partition),
      ("operation", ofOperation c.operation)]
  .obj [("directive", .str o.directive.name), ("cascades", ofList ofCascade o.cascades)]

end Wire

end ConceptLedger
