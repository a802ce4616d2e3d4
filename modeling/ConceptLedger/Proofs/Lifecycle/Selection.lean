import ConceptLedger.Proofs.Lifecycle.Cascades
import ConceptLedger.Proofs.Lifecycle.Iterations
import ConceptLedger.Proofs.Store.Queue

/-!
The setup that a model selects, over whole histories. The setups that a model contains are protected
while it selects them: they are neither removed nor frozen. An update may select any setup of the
partition, and the setups of another model are not protected. So what is selected stays live if no
other model ever has a setup of that identifier.

In every partition, a setup that is selected by the model that contains it is live (`settled_after`).
That it stays stored is stated for the site directory, where all setups come from submitted operations
(`Caused.create`). In the partition of a model the hooks may create setups, too: a new iteration is a
copy of what is stored under the identifier of the one before, be it an iteration or not, and has the
identifier that another partition's setup names. There the submitted operations do not tell under
which models a setup has been.
-/

namespace ConceptLedger

open Lifecycle Forest

/-- An identifier that only one model has for a setup, which is stored while the model selects it. -/
structure Selects (p : Partition) (e s : ConceptId) (f : Stock)
    (queue : List (Partition × Operation)) : Prop where
  owned : ∀ c, f p s = some c → c.conceptType = .iterationSetup → c.container = some e
  present : ∀ m, f p e = some m → m.conceptType = .engineeringModelSetup →
    m.ref? Property.activeIterationSetup = some s →
    ∃ c, f p s = some c ∧ c.conceptType = .iterationSetup
  waiting : ∀ c orderKey, (p, .create c orderKey) ∈ queue → c.id = s →
    c.conceptType = .iterationSetup → c.container = some e

namespace Batch

variable {env : Setting} {p : Partition} {d d' : Draft} {e s : ConceptId}

theorem forM_ok {α : Type} {f : α → Except Failure Unit} {l : List α} (run : l.forM f = .ok ())
    {a : α} (member : a ∈ l) : f a = .ok () := by
  induction l with
  | nil => cases member
  | cons first rest ih =>
    obtain ⟨_, here, later⟩ := Except.bind_ok run
    rcases List.mem_cons.mp member with rfl | inside
    · exact here
    · exact ih later inside

/-- What an association refers to was referred to before or is stored, with the declared type. -/
theorem Draft.Targets.stored {c : Concept} {former : Option Concept} {a : Association} {t : ConceptId}
    (targets : d.Targets p c former) (declared : a ∈ c.conceptType.associations)
    (named : c.ref? a.name = some t) :
    (∃ c₀, former = some c₀ ∧ c₀.ref? a.name = some t) ∨
      ∃ target, d.find? p t = some target ∧ target.conceptType = a.target := by
  have checked := forM_ok targets declared
  obtain ⟨value, held, reference⟩ := Option.bind_eq_some_iff.mp named
  unfold requireTargetsOf at checked
  rw [held] at checked
  dsimp only at checked
  split at checked
  · rename_i agree
    have same := (int?_of_agrees agree).2.1
    obtain ⟨old, there, reference⟩ := Option.bind_eq_some_iff.mp (same.trans reference)
    obtain ⟨c₀, stored, property⟩ := Option.bind_eq_some_iff.mp there
    exact .inl ⟨c₀, stored, Option.bind_eq_some_iff.mpr ⟨old, property, reference⟩⟩
  · have listed : t ∈ value.referenced := by
      cases value <;> simp_all [PropertyValue.ref?, PropertyValue.referenced]
    have found := forM_ok checked listed
    unfold requireTarget at found
    simp only [Except.bind] at found
    split at found
    · cases found
    · rename_i target there
      split at found
      · rename_i fits
        exact .inr ⟨target, there, fits⟩
      · cases found

/-- A new model selects nothing. -/
theorem CreateRequest.unselected {c c' : Concept} {container : Option Concept} {before : HookOutcome}
    (standard : env.registry = Registry.standard) (kind : c.conceptType = .engineeringModelSetup)
    (request : CreateRequest env p d c container c' before) :
    c'.ref? Property.activeIterationSetup = none := by
  have type := c.withoutChildren_conceptType
  rcases request.hooked.standard_cases standard with ⟨-, x, t, o, -, run, -, answer⟩ |
    ⟨other, -⟩ | ⟨other, -⟩
  · obtain ⟨-, named, -, result⟩ := EngineeringModelSetup.beforeCreate_ok run
    rw [answer.1, result, Concept.ref?, Concept.property?_setProperty_self]
    rfl
  · cases other.symm.trans (type.trans kind)
  · exact absurd (type.trans kind) other

/-- A model selects what it selected before, unless an update selects a stored setup. -/
theorem Origin.selects {operation : Operation} {m : Concept}
    (standard : env.registry = Registry.standard) (origin : Origin env p d e operation m)
    (kind : m.conceptType = .engineeringModelSetup)
    (chosen : m.ref? Property.activeIterationSetup = some s) :
    (∃ former, d.find? p e = some former ∧ former.conceptType = .engineeringModelSetup ∧
      former.ref? Property.activeIterationSetup = some s) ∨
    ∃ u, operation = .update u ∧ ∃ c, d.find? p s = some c ∧ c.conceptType = .iterationSetup := by
  rcases origin.relisted_or_handled with ⟨former, same⟩ | own
  · have type : m.conceptType = former.conceptType := congrArg Outline.conceptType same.outline
    have active := same.rest Property.activeIterationSetup fun q declared =>
      containment_ne declared (by decide)
    refine .inl ⟨former, same.before, type.symm.trans kind, ?_⟩
    rw [← chosen, Concept.ref?, Concept.ref?, active]
  · cases own with
    | @created c c' _ _ _ _ here request =>
      obtain ⟨-, outline, -⟩ := request.child standard
      have type : c'.conceptType = c.conceptType := congrArg Outline.conceptType outline
      have none := request.unselected standard (type.symm.trans kind)
      cases none.symm.trans chosen
    | @updated u former _ c' _ _ _ here request targets =>
      have type : c'.conceptType = former.conceptType :=
        congrArg Outline.conceptType (request.outline standard)
      have kind : c'.conceptType = .engineeringModelSetup := kind
      have declared : (⟨Property.activeIterationSetup, .iterationSetup⟩ : Association) ∈
          c'.conceptType.associations := by
        rw [kind]
        exact List.mem_cons_self
      rcases targets.stored declared chosen with ⟨_, ⟨⟩, before⟩ | ⟨target, stored, setup⟩
      · exact .inl ⟨former, here ▸ request.stored, type.symm.trans kind, before⟩
      · exact .inr ⟨u, rfl, target, stored, setup⟩
    | @marked _ former c' _ _ _ request convert =>
      have type : c'.conceptType = former.conceptType :=
        congrArg Outline.conceptType (request.outline standard)
      have other : former.conceptType ≠ .iterationSetup := by
        intro same
        cases kind.symm.trans (type.trans same)
      obtain ⟨-, rfl⟩ := (request.hooked.delete_ok standard).1 other
      cases convert

/-- What is removed is not a setup that its container selects. -/
theorem DeleteRequest.unselected {id : ConceptId} {t : ConceptType} {former c' m : Concept}
    {container : Option Concept} {before : HookOutcome} (standard : env.registry = Registry.standard)
    (forest : Forest (d.find? p)) (request : DeleteRequest env p d id t former container c' before)
    (kind : former.conceptType = .iterationSetup) (named : former.container = some e)
    (there : d.find? p e = some m) : m.ref? Property.activeIterationSetup ≠ some id := by
  intro chosen
  have free := ((request.hooked.delete_ok standard).2 kind).1
  rw [request.within, named, Option.bind_some, there, forest.keyed _ _ request.stored] at free
  simp [isCurrent, chosen] at free

/-- What a model selects is still stored after an operation. -/
theorem Effect.selected {operation : Operation} {cascades : List Cascade}
    {queue : List (Partition × Operation)} {m : Concept}
    (standard : env.registry = Registry.standard) (forest : Forest (d.find? p))
    (selects : Selects p e s d.find? queue) (effect : Effect env p d operation cascades d')
    (stored : d'.find? p e = some m) (kind : m.conceptType = .engineeringModelSetup)
    (chosen : m.ref? Property.activeIterationSetup = some s) :
    ∃ c, d'.find? p s = some c ∧ c.conceptType = .iterationSetup := by
  have keep : ∀ {c : Concept}, c.conceptType = .iterationSetup →
      (∃ c', d'.find? p s = some c' ∧ c'.outline = c.outline) →
      ∃ c', d'.find? p s = some c' ∧ c'.conceptType = .iterationSetup :=
    fun setup ⟨c', there, outline⟩ =>
      ⟨c', there, (congrArg Outline.conceptType outline).trans setup⟩
  rcases (effect.origin standard forest stored).selects standard kind chosen with
    ⟨former, before, kind', chosen'⟩ | ⟨u, rfl, c, there, setup⟩
  · obtain ⟨c, there, setup⟩ := selects.present former before kind' chosen'
    cases effect.fate standard forest with
    | stay rest => exact keep setup (rest s c there)
    | @fall id _ top _ _ _ request proceed gone rest =>
      -- the model stays, so at most the setup itself could be removed, which it protects
      have outside : ¬ Outline.Within (outlines (d.find? p)) id e := fun within =>
        nomatch (gone e within).symm.trans stored
      have child : outlines (d.find? p) s = some ⟨c.conceptType, some e⟩ := by
        refine outlines_eq_some_iff.mpr ⟨c, there, ?_⟩
        rw [Concept.outline, selects.owned c there setup]
      rcases top_or_outside outside child with rfl | apart
      · cases request.stored.symm.trans there
        exact absurd chosen'
          (request.unselected standard forest setup (selects.owned _ there setup) before)
      · exact keep setup (rest s c apart there)
  · cases effect.fate standard forest with
    | stay rest => exact keep setup (rest s c there)

/-- Every operation keeps what is selected, in the site directory. -/
theorem Effect.selects {r : Partition} {operation : Operation}
    {waiting : List (Partition × Operation)} {cascades : List Cascade}
    (standard : env.registry = Registry.standard) (forests : d.Forested)
    (selects : Selects .siteDirectory e s d.find? ((r, operation) :: waiting))
    (effect : Effect env r d operation cascades d') :
    Selects .siteDirectory e s d'.find? (waiting ++ cascades.map (place r)) := by
  have waits : ∀ c orderKey, (.siteDirectory, .create c orderKey) ∈ waiting ++ cascades.map (place r) →
      c.id = s → c.conceptType = .iterationSetup → c.container = some e := by
    intro c orderKey member
    rcases List.mem_append.mp member with before | caused
    · exact selects.waiting c orderKey (List.mem_cons_of_mem _ before)
    · obtain ⟨model, other⟩ := (effect.caused standard (forests r)).create caused
      cases other
  by_cases here : .siteDirectory = r
  · subst here
    refine ⟨fun c stored kind => ?_, fun m stored kind chosen =>
      effect.selected standard (forests _) selects stored kind chosen, waits⟩
    rcases (effect.origin standard (forests _) stored).outline standard with
      ⟨former, before, outline⟩ | ⟨u, orderKey, rfl, id, outline⟩
    · have type : c.conceptType = former.conceptType := congrArg Outline.conceptType outline
      exact (congrArg Outline.container outline).trans
        (selects.owned former before (type.symm.trans kind))
    · have type : c.conceptType = u.conceptType := congrArg Outline.conceptType outline
      exact (congrArg Outline.container outline).trans
        (selects.waiting u orderKey List.mem_cons_self id (type.symm.trans kind))
  · have same := effect.elsewhere here
    exact ⟨same ▸ selects.owned, same ▸ selects.present, waits⟩

end Batch

namespace Memory

open Batch IterationSetup

/-- After every history under the standard registry, the setup that a model of the site directory
selects is stored, contained in that model, and neither frozen nor marked as deleted, unless a setup
of that identifier was to be created in another model. -/
theorem selection_after (visits : List Visit)
    (standard : ∀ v ∈ visits, v.policy.registry = Registry.standard) {e s : ConceptId} {m : Concept}
    (stored : (Database.after visits).contents.find? .siteDirectory e = some m)
    (kind : m.conceptType = .engineeringModelSetup)
    (selected : m.ref? Property.activeIterationSetup = some s)
    (own : ∀ c orderKey, Submitted visits .siteDirectory (.create c orderKey) → c.id = s →
      c.conceptType = .iterationSetup → c.container = some e) :
    ∃ c, (Database.after visits).contents.find? .siteDirectory s = some c ∧
      c.conceptType = .iterationSetup ∧ c.container = some e ∧ isFrozen c = false ∧
      c.isSoftDeleted = false := by
  have selects : Selects .siteDirectory e s (Database.after visits).contents.find? [] := by
    refine after_keeps_queue standard ⟨fun _ none => (nomatch none), fun _ none => (nomatch none),
      fun _ _ none => (nomatch none)⟩ ?_ ?_
    · intro f p operation entered selects
      refine ⟨selects.owned, selects.present, fun c orderKey member => ?_⟩
      cases List.mem_singleton.mp member
      exact own c orderKey entered
    · intro env d d' p operation waiting cascades registry forests selects effect
      exact effect.selects registry forests selects
  obtain ⟨c, there, setup⟩ := selects.present m stored kind selected
  have settled := settled_after visits standard
  obtain rfl := (settled.1 .siteDirectory).keyed _ _ there
  have member : Member ((Database.after visits).contents.find? .siteDirectory) e c :=
    ⟨there, setup, selects.owned c there setup⟩
  have thawed := (settled.2 .siteDirectory).selected m e c stored member selected
  refine ⟨c, there, setup, member.container, thawed, ?_⟩
  cases marked : c.isSoftDeleted with
  | false => rfl
  | true => exact nomatch thawed.symm.trans ((settled.2 .siteDirectory).deleted e c member marked)

/-- The second of two setups is selected. -/
theorem selection_after_iterating :
    (∃ m, (Database.after [founding, iterating]).contents.find? .siteDirectory (.ofNat 3) = some m ∧
      m.conceptType = .engineeringModelSetup ∧
      m.ref? Property.activeIterationSetup = some (.ofNat 5)) ∧
    ∃ c, (Database.after [founding, iterating]).contents.find? .siteDirectory (.ofNat 5) = some c ∧
      c.conceptType = .iterationSetup ∧ c.container = some (.ofNat 3) ∧ isFrozen c = false ∧
      c.isSoftDeleted = false := by
  obtain ⟨m, stored, kind, selected⟩ : ∃ m, (Database.after [founding, iterating]).contents.find?
      .siteDirectory (.ofNat 3) = some m ∧ m.conceptType = .engineeringModelSetup ∧
      m.ref? Property.activeIterationSetup = some (.ofNat 5) := stored_of_any (by decide +kernel)
  refine ⟨⟨m, stored, kind, selected⟩,
    selection_after [founding, iterating] (founding_standard rfl) stored kind selected ?_⟩
  rintro c orderKey ⟨policy, request, now, ids, member, -, inside⟩ id setup
  rcases List.mem_pair.mp member with same | same <;> cases same
  · obtain ⟨rfl, -⟩ : c = { id := .ofNat 2, conceptType := .siteDirectory } ∧ orderKey = none := by
      simpa [foundingRequest] using inside
    cases setup
  · have among : c.id = .ofNat 5 → c.container = some (.ofNat 3) := by
      simp only [List.mem_cons, Operation.create.injEq, List.not_mem_nil, or_false] at inside
      rcases inside with ⟨rfl, -⟩ | ⟨rfl, -⟩ | ⟨rfl, -⟩ <;> decide
    exact among id

/-- A model of its own partition. -/
def lender : Concept :=
  ({ id := .ofNat 3, conceptType := .engineeringModelSetup, container := some (.ofNat 2) } :
    Concept).setProperty Property.engineeringModelIid (.ref (.ofNat 9))

/-- The visit that sets up two models, lets the first one select the setup of the second one and
then gives the second one another setup. -/
def lending : Visit :=
  .batch {}
    { context := ⟨"lending", none⟩
      actor := foundingRequest.actor
      partition := .siteDirectory
      operations := [
        .create lender none,
        .create { id := .ofNat 4, conceptType := .engineeringModelSetup, container := some (.ofNat 2) }
          none,
        .create { id := .ofNat 5, conceptType := .iterationSetup, container := some (.ofNat 4) } none,
        .update (lender.setProperty Property.activeIterationSetup (.ref (.ofNat 5))),
        .create { id := .ofNat 6, conceptType := .iterationSetup, container := some (.ofNat 4) } none] }
    default ⟨.ofNat, 7⟩

/-- A model whose selected setup is one of another model and is frozen. -/
theorem selection_after_lending :
    (∀ v ∈ [founding, lending], v.policy.registry = Registry.standard) ∧
    (∃ m, (Database.after [founding, lending]).contents.find? .siteDirectory (.ofNat 3) = some m ∧
      m.conceptType = .engineeringModelSetup ∧
      m.ref? Property.activeIterationSetup = some (.ofNat 5)) ∧
    ∃ c, (Database.after [founding, lending]).contents.find? .siteDirectory (.ofNat 5) = some c ∧
      c.container = some (.ofNat 4) ∧ isFrozen c = true :=
  ⟨founding_standard rfl, stored_of_any (by decide +kernel), stored_of_any (by decide +kernel)⟩

end Memory

end ConceptLedger
