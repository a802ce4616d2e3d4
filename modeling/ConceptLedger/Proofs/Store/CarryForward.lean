import ConceptLedger.Proofs.Lifecycle.Iterations
import ConceptLedger.Proofs.Lifecycle.Renewal
import ConceptLedger.Proofs.Store.Submission

/-!
Iterations are carried forward. A batch that creates an iteration setup and is committed hands over from
the latest setup to the new one, and creates an iteration for it in which all of the latest iteration is
repeated.
-/

namespace ConceptLedger

namespace Memory

open Batch Lifecycle Forest IterationSetup

/-- The iteration of a setup, if the setup is given and its iteration is stored in the model. -/
def Contents.iterationOf? (s : Contents) (model : ConceptId) (setup : Option Concept) : Option Concept :=
  setup.bind fun t => (t.ref? Property.iterationIid).bind (s.find? (.model model))

/-- The contents before and after the setup `s` came to the model that `e` sets up. It comes after the
latest setup there. It is selected, and the other setups are frozen. Its iteration is the one that is new,
and is like that of the latest setup: it has the same properties, and if nothing within the former one
lists a child twice or under a key out of order, all its contents are repeated. -/
structure Contents.CarriedForward (before after : Contents) (p : Partition) (time : Instant)
    (e s : Concept) (latest : Option Concept) (model : ConceptId) (iteration : Concept) : Prop where
  unborn : before.find? p s.id = none
  joined : Member (after.find? p) e.id s
  thawed : isFrozen s = false
  succeeds : Succeeds (before.find? p) e.id s latest
  selected : ∃ e', after.find? p e.id = some e' ∧ e'.outline = e.outline ∧
    e'.accessOverride = e.accessOverride ∧ e'.ref? Property.activeIterationSetup = some s.id ∧
    ∀ name, name ≠ Property.activeIterationSetup → name ≠ Property.iterationSetup →
      e'.property? name = e.property? name
  frozen : ∀ a, Member (before.find? p) e.id a → isFrozen a = false →
    ∃ a', after.find? p a.id = some a' ∧ FrozenAt time a a'
  cold : ∀ a, Member (before.find? p) e.id a → isFrozen a = true → after.find? p a.id = some a
  backed : s.ref? Property.iterationIid = some iteration.id
  begun : before.find? (.model model) iteration.id = none
  stored : after.find? (.model model) iteration.id = some iteration
  kind : iteration.conceptType = .iteration
  container : iteration.container = some model
  setup : iteration.property? Property.iterationSetup = some (.ref s.id)
  only : ∀ q x i, after.find? q x = some i → i.conceptType = .iteration → before.find? q x = none →
    q = .model model ∧ x = iteration.id
  like : ∀ former, before.iterationOf? model latest = some former → former.conceptType = .iteration ∧
    iteration.accessOverride = former.accessOverride ∧
    ∀ name, name ≠ Property.iterationSetup →
      (∀ q ∈ ConceptType.iteration.containment, q.name ≠ name) →
      iteration.property? name = former.property? name
  repeated : ∀ former, before.iterationOf? model latest = some former →
    Tidy (before.find? (.model model)) former.id →
    ∃ copy, Replica (before.find? (.model model)) (after.find? (.model model)) former.id iteration.id copy
  empty : before.iterationOf? model latest = none →
    ∀ q ∈ ConceptType.iteration.containment, iteration.entries q = []
  kept : ∀ q x c, before.find? q x = some c → (q = .model model → x ≠ model) →
    (q = p → x ≠ e.id ∧ ∀ a, Member (before.find? p) e.id a → isFrozen a = false → a.id ≠ x) →
    after.find? q x = some c

/-- What is logged of a batch does not matter for it. -/
theorem Contents.CarriedForward.recorded {before after : Contents} {p : Partition} {time : Instant}
    {e s iteration : Concept} {latest : Option Concept} {model : ConceptId}
    (carried : before.CarriedForward after p time e s latest model iteration)
    (records : List RevisionRecord) :
    before.CarriedForward (after.record records) p time e s latest model iteration :=
  { carried with }

end Memory

namespace Batch

open Memory Lifecycle Forest IterationSetup

/-- A renewal carries the contents of its first draft forward to those of its last. -/
theorem Renewal.carriedForward {p : Partition} {d d₁ d₂ d₃ : Draft} {e s e' : Concept}
    {latest previous : Option Concept} {prior : List Concept} {model id : ConceptId}
    {copies : List Copy}
    (renewal : Renewal p d d₁ d₂ d₃ e s e' latest prior model id previous copies) :
    ∃ iteration, d.contents.CarriedForward d₃.contents p d.view.time e s latest model iteration := by
  obtain ⟨iteration, absent, stored, rfl, outline, override, properties, bare⟩ := renewal.iteration
  have follows : previous = d.contents.iterationOf? model latest := renewal.follows
  refine ⟨iteration, ?_⟩
  constructor
  case unborn => exact renewal.begun.fresh
  case joined => exact renewal.member
  case thawed => exact renewal.begun.thawed
  case succeeds => exact renewal.begun.succeeds
  case selected =>
    obtain ⟨e'', there, chooses⟩ := renewal.selected
    obtain ⟨-, outline, override, listing⟩ := renewal.begun.listing
    exact ⟨e'', there, chooses.outline.trans outline, chooses.override.trans override, chooses.chosen,
      fun name other apart => (chooses.rest name other).trans (listing name apart)⟩
  case frozen => exact fun a => renewal.frozen
  case cold => exact fun a => renewal.cold
  case backed => exact renewal.begun.backed
  case begun => exact absent
  case stored => exact stored
  case kind => exact congrArg Outline.conceptType outline
  case container => exact congrArg Outline.container outline
  case setup =>
    rw [properties Property.iterationSetup (by decide)]
    exact (iterationOf_eq s iteration.id model previous).2.2
  case only => exact fun q x i => renewal.only
  case like =>
    intro former same
    obtain rfl := follows.trans same
    have kind := renewal.follows_iteration former rfl
    obtain ⟨override', properties'⟩ := iterationOf_like s iteration.id model former
    rw [kind] at properties'
    exact ⟨kind, override.trans override', fun name other apart =>
      (properties name apart).trans (properties' name other apart)⟩
  case repeated =>
    intro former same tidy
    obtain rfl := follows.trans same
    exact renewal.replica tidy
  case empty => exact fun none => bare (follows.trans none)
  case kept => exact fun q x c => renewal.kept

end Batch

namespace Memory

open Batch Lifecycle Forest IterationSetup

/-- After every history under the standard registry, a batch that creates an iteration setup for a model
with a proper root and is committed carries the iteration of the model forward. -/
theorem carried_forward (visits : List Visit)
    (standard : ∀ v ∈ visits, v.policy.registry = Registry.standard) (policy : Policy)
    (registry : policy.registry = Registry.standard) (request : BatchRequest) (now : Instant)
    (ids : IdSupply) (setup e root : Concept) (orderKey : Option Int64) (model : ConceptId)
    (outcome : BatchOutcome) (single : request.operations = [.create setup orderKey])
    (kind : setup.conceptType = .iterationSetup) (container : setup.container = some e.id)
    (there : (Database.after visits).contents.find? request.partition e.id = some e)
    (names : e.ref? Property.engineeringModelIid = some model)
    (rooted : (Database.after visits).contents.find? (.model model) model = some root)
    (engineering : root.conceptType = .engineeringModel)
    (done : (policy.submit request now ids (Database.after visits)).1.result = .ok outcome) :
    ∃ s latest iteration, s.id = setup.id ∧
      (Database.after visits).contents.CarriedForward
        (policy.submit request now ids (Database.after visits)).2.contents request.partition
        ((Database.after visits).nextTime now) e s latest model iteration := by
  have settled := settled_after visits standard
  generalize unavailable_after visits = available
  generalize Database.after visits = db at *
  obtain ⟨result, contents⟩ := @submit_of_available db policy request now ids available
  cases attempt : db.attempt policy request now ids with
  | mk answer t =>
    rw [attempt] at result contents
    cases answer with
    | error f => cases done.symm.trans result
    | ok answer =>
      have run : Batch.run (policy.settingFor request.actor) request.partition request.operations
        { view := db.opened now, ids } = (.ok answer, t) := attempt
      rw [single] at run
      obtain ⟨_, s₁, applied, finished⟩ := Step.bind_eq_ok_iff.mp run
      obtain ⟨records, logged, -⟩ := Batch.finish_ok finished
      have forests : (Batch.State.draft { view := db.opened now, ids }).Forested := settled.1
      obtain ⟨d₁, d₂, s, e', latest, prior, id, previous, copies, same, renewal⟩ :=
        (applyAll_single_chain applied).renewal registry forests
          (fun y a => (settled.2 request.partition).deleted y a) kind container there names rooted
          engineering
      obtain ⟨iteration, carried⟩ := renewal.carriedForward
      have after : (policy.submit request now ids db).2.contents = s₁.draft.contents.record records :=
        contents.trans logged
      exact ⟨s, latest, iteration, same, after ▸ carried.recorded records⟩

/-- What can be computed of everything that is stored. -/
theorem Contents.of_all {s : Contents} {P : Concept → Prop} [DecidablePred P]
    (all : (s.concepts.toList.all fun entry => P entry.2) = true) {p : Partition} {x : ConceptId}
    {c : Concept} (stored : s.find? p x = some c) : P c :=
  of_decide_eq_true (List.all_eq_true.mp all _ (SortedMap.find?_eq_some_iff.mp stored))

/-- The visit that puts an element into the second iteration of a model, with two definitions and a name. -/
def drafting : Visit :=
  .batch {}
    { context := ⟨"drafting", none⟩
      actor := foundingRequest.actor
      partition := .model (.ofNat 6)
      operations := [
        .create { id := .ofNat 10, conceptType := .elementDefinition, container := some (.ofNat 8) } none,
        .create { id := .ofNat 11, conceptType := .definition, container := some (.ofNat 10) } (some 5),
        .create { id := .ofNat 12, conceptType := .definition, container := some (.ofNat 10) } (some 3),
        .create { id := .ofNat 13, conceptType := .aliasName, container := some (.ofNat 10) } none] }
    default ⟨.ofNat, 14⟩

/-- A third setup for the model. -/
def thirdSetup : Concept where
  id := .ofNat 14
  conceptType := .iterationSetup
  container := some (.ofNat 3)

/-- The request that creates a setup. -/
def continuing (setup : Concept) : BatchRequest :=
  { foundingRequest with operations := [.create setup none] }

/-- The element is repeated in a third iteration. -/
theorem carried_forward_drafting : ∃ outcome e root s latest iteration former copy,
    (∀ v ∈ [founding, iterating, drafting], v.policy.registry = Registry.standard) ∧
    (Database.after [founding, iterating, drafting]).contents.find? .siteDirectory e.id = some e ∧
    thirdSetup.container = some e.id ∧
    e.ref? Property.engineeringModelIid = some (.ofNat 6) ∧
    (Database.after [founding, iterating, drafting]).contents.find? (.model (.ofNat 6)) (.ofNat 6) =
      some root ∧
    root.conceptType = .engineeringModel ∧
    (({} : Policy).submit (continuing thirdSetup) default ⟨.ofNat, 15⟩
      (Database.after [founding, iterating, drafting])).1.result = .ok outcome ∧
    (Database.after [founding, iterating, drafting]).contents.CarriedForward
      (({} : Policy).submit (continuing thirdSetup) default ⟨.ofNat, 15⟩
        (Database.after [founding, iterating, drafting])).2.contents .siteDirectory
      ((Database.after [founding, iterating, drafting]).nextTime default) e s latest (.ofNat 6)
      iteration ∧
    (Database.after [founding, iterating, drafting]).contents.iterationOf? (.ofNat 6) latest =
      some former ∧
    Replica ((Database.after [founding, iterating, drafting]).contents.find? (.model (.ofNat 6)))
      ((({} : Policy).submit (continuing thirdSetup) default ⟨.ofNat, 15⟩
        (Database.after [founding, iterating, drafting])).2.contents.find? (.model (.ofNat 6)))
      former.id iteration.id copy := by
  have standard : ∀ v ∈ [founding, iterating, drafting], v.policy.registry = Registry.standard := by
    simp [founding, iterating, drafting, Visit.policy]
  obtain ⟨e, there, id, names⟩ : ∃ e, (Database.after [founding, iterating, drafting]).contents.find?
      .siteDirectory (.ofNat 3) = some e ∧ e.id = .ofNat 3 ∧
      e.ref? Property.engineeringModelIid = some (.ofNat 6) := stored_of_any (by decide +kernel)
  rw [← id] at there
  have container : thirdSetup.container = some e.id := by
    rw [id]
    rfl
  obtain ⟨root, rooted, engineering⟩ : ∃ root,
      (Database.after [founding, iterating, drafting]).contents.find? (.model (.ofNat 6)) (.ofNat 6) =
        some root ∧ root.conceptType = .engineeringModel := stored_of_any (by decide +kernel)
  have answered : (({} : Policy).submit (continuing thirdSetup) default ⟨.ofNat, 15⟩
      (Database.after [founding, iterating, drafting])).1.result.toOption.isSome = true := by
    decide +kernel
  obtain ⟨outcome, committed⟩ := Option.isSome_iff_exists.mp answered
  have committed := ok_of_toOption committed
  obtain ⟨s, latest, iteration, same, carried⟩ := carried_forward [founding, iterating, drafting] standard
    {} rfl (continuing thirdSetup) default ⟨.ofNat, 15⟩ thirdSetup e root none (.ofNat 6) outcome rfl rfl
    container there names rooted engineering committed
  rw [show (continuing thirdSetup).partition = .siteDirectory from rfl] at carried
  -- the third setup follows the second one, and so its iteration follows the second iteration
  obtain ⟨former, follows⟩ : ∃ former, (Database.after [founding, iterating, drafting]).contents.iterationOf?
      (.ofNat 6) latest = some former := by
    have source : (((({} : Policy).submit (continuing thirdSetup) default ⟨.ofNat, 15⟩
        (Database.after [founding, iterating, drafting])).2.contents.find? .siteDirectory
          (.ofNat 14)).bind (·.ref? Property.sourceIterationSetup)) = some (.ofNat 5) := by
      decide +kernel
    have here : s.id = .ofNat 14 := same
    rw [← here, carried.joined.stored, Option.bind_some] at source
    rw [carried.succeeds.of_source source]
    exact Option.isSome_iff_exists.mp (by decide +kernel)
  have tidy : Tidy ((Database.after [founding, iterating, drafting]).contents.find? (.model (.ofNat 6)))
      former.id := by
    have all : ∀ {x c}, (Database.after [founding, iterating, drafting]).contents.find?
        (.model (.ofNat 6)) x = some c → ∀ q ∈ c.conceptType.containment,
          (c.members q).Nodup ∧ (c.keys q).Pairwise (· < ·) :=
      fun stored => Contents.of_all (P := fun c => ∀ q ∈ c.conceptType.containment,
        (c.members q).Nodup ∧ (c.keys q).Pairwise (· < ·)) (by decide +kernel) stored
    exact ⟨fun x c _ stored q declared => (all stored q declared).1,
      fun x c _ stored q declared => (all stored q declared).2⟩
  obtain ⟨copy, replica⟩ := carried.repeated former follows tidy
  exact ⟨outcome, e, root, s, latest, iteration, former, copy, standard, there, container, names, rooted,
    engineering, committed, carried, follows, replica⟩

/-- The visit that sets up a model with an iteration. -/
def assigning : Visit :=
  .batch {}
    { foundingRequest with
      operations := [
        .create (Concept.setProperty
          { id := .ofNat 3, conceptType := .engineeringModelSetup, container := some (.ofNat 2) }
          Property.engineeringModelIid (.ref (.ofNat 100))) none,
        .create (Concept.setProperty
          { id := .ofNat 4, conceptType := .iterationSetup, container := some (.ofNat 3) }
          Property.iterationIid (.ref (.ofNat 200))) none] }
    default ⟨.ofNat, 5⟩

/-- The visit that puts a site directory in place of its root, and a library in place of its iteration. -/
def displacing : Visit :=
  .batch {}
    { foundingRequest with
      partition := .model (.ofNat 100)
      operations := [
        .delete (.ofNat 100) .engineeringModel,
        .create { id := .ofNat 100, conceptType := .siteDirectory } none,
        .create { id := .ofNat 200, conceptType := .siteReferenceDataLibrary, container := some (.ofNat 100) }
          none] }
    default ⟨.ofNat, 5⟩

/-- A second setup for that model. -/
def displacedSetup : Concept :=
  ({ id := .ofNat 5, conceptType := .iterationSetup, container := some (.ofNat 3) } :
    Concept).setProperty Property.iterationIid (.ref (.ofNat 300))

/-- Where the root of a model is no engineering model, a setup can be created without any iteration. -/
theorem not_carried_forward_displacing : ∃ outcome e root,
    (∀ v ∈ [founding, assigning, displacing], v.policy.registry = Registry.standard) ∧
    displacedSetup.conceptType = .iterationSetup ∧ displacedSetup.container = some (.ofNat 3) ∧
    (Database.after [founding, assigning, displacing]).contents.find? .siteDirectory (.ofNat 3) = some e ∧
    e.conceptType = .engineeringModelSetup ∧
    e.ref? Property.engineeringModelIid = some (.ofNat 100) ∧
    (Database.after [founding, assigning, displacing]).contents.find? (.model (.ofNat 100))
      (.ofNat 100) = some root ∧
    root.conceptType = .siteDirectory ∧
    (({} : Policy).submit (continuing displacedSetup) default ⟨.ofNat, 6⟩
      (Database.after [founding, assigning, displacing])).1.result = .ok outcome ∧
    ∀ q x i, (({} : Policy).submit (continuing displacedSetup) default ⟨.ofNat, 6⟩
      (Database.after [founding, assigning, displacing])).2.contents.find? q x = some i →
        i.conceptType ≠ .iteration := by
  obtain ⟨e, there, kind, names⟩ : ∃ e,
      (Database.after [founding, assigning, displacing]).contents.find? .siteDirectory (.ofNat 3) =
        some e ∧ e.conceptType = .engineeringModelSetup ∧
        e.ref? Property.engineeringModelIid = some (.ofNat 100) := stored_of_any (by decide +kernel)
  obtain ⟨root, rooted, directory⟩ : ∃ root,
      (Database.after [founding, assigning, displacing]).contents.find? (.model (.ofNat 100))
        (.ofNat 100) = some root ∧ root.conceptType = .siteDirectory :=
    stored_of_any (by decide +kernel)
  have answered : (({} : Policy).submit (continuing displacedSetup) default ⟨.ofNat, 6⟩
      (Database.after [founding, assigning, displacing])).1.result.toOption.isSome = true := by
    decide +kernel
  obtain ⟨outcome, committed⟩ := Option.isSome_iff_exists.mp answered
  refine ⟨outcome, e, root, ?_, rfl, rfl, there, kind, names, rooted, directory,
    ok_of_toOption committed, fun q x i stored => ?_⟩
  · simp [founding, assigning, displacing, Visit.policy]
  · exact Contents.of_all (P := fun c => c.conceptType ≠ .iteration) (by decide +kernel) stored

end Memory

end ConceptLedger
