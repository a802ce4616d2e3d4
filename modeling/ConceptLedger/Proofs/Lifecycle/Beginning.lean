import ConceptLedger.Proofs.Lifecycle.Counterparts
import ConceptLedger.Proofs.Store.Neighbourhood

/-!
The beginning of an iteration. A new iteration setup comes after the latest one that its container has,
and follows the iteration of that one if it is stored. The cascades of its creation are to select it, to
freeze the other setups, and to create its iteration with the contents of the one that it follows.
-/

namespace ConceptLedger

open Lifecycle Forest

namespace IterationSetup

/-- How a setup comes after those that a container has before: with the number one and without a source
if there are none, and otherwise with the next number and with the latest of them as its source. -/
inductive Succeeds (f : ConceptId → Option Concept) (e : ConceptId) (s : Concept) :
    Option Concept → Prop
  | first (alone : ∀ a, ¬ Member f e a)
      (number : s.property? Property.iterationNumber = some (.int 1))
      (source : s.property? Property.sourceIterationSetup = some .null) : Succeeds f e s none
  | next {t : Concept} (member : Member f e t)
      (latest : ∀ a, Member f e a → iterationNumber a ≤ iterationNumber t)
      (room : iterationNumber t ≠ Int64.maxValue)
      (number : s.property? Property.iterationNumber = some (.int (iterationNumber t + 1)))
      (source : s.property? Property.sourceIterationSetup = some (.ref t.id)) : Succeeds f e s (some t)

/-- The source of a setup is the latest of those before it. -/
theorem Succeeds.of_source {f : ConceptId → Option Concept} {e t : ConceptId} {s : Concept}
    {latest : Option Concept} (succeeds : Succeeds f e s latest)
    (source : s.ref? Property.sourceIterationSetup = some t) : latest = f t := by
  unfold Concept.ref? at source
  cases succeeds with
  | first alone number named =>
    rw [named] at source
    cases source
  | next member latest room number named =>
    rw [named] at source
    cases source
    exact member.stored.symm

/-- What is assigned to a new setup makes it come after its siblings. -/
theorem assigned_succeeds {f : ConceptId → Option Concept} {e : ConceptId} {named : Concept}
    {prior : List Concept} {number : Int64} {r : UInt64} (members : ∀ a, a ∈ prior ↔ Member f e a)
    (next : nextNumber prior = .ok number) :
    Succeeds f e { assigned named number prior with revisionNumber := r } (latest? prior) := by
  have numbered : (assigned named number prior).property? Property.iterationNumber =
      some (.int number) := by
    simp [assigned, Concept.property?_setProperty, Property.iterationNumber, Property.isDeleted,
      Property.frozenOn, Property.sourceIterationSetup]
  have source : (assigned named number prior).property? Property.sourceIterationSetup =
      some (sourceOf prior) := Concept.property?_setProperty_self _ _ _
  rcases nextNumber_eq next with ⟨none, rfl⟩ | ⟨t, latest, room, rfl⟩
  · rw [none]
    obtain rfl := (latest?_spec prior).1 none
    exact .first (fun a member => absurd ((members a).mpr member) List.not_mem_nil) numbered source
  · rw [sourceOf, latest] at source
    rw [latest]
    exact .next ((members t).mp (latest?_mem latest))
      (fun a member => (latest?_spec prior).2 t latest a ((members a).mpr member)) room numbered source

/-- What a new setup follows is the iteration of the latest of its siblings. -/
theorem previousIteration_eq {setting : HookSetting} {s : Concept} {model : ConceptId}
    {prior : List Concept} {latest previous : Option Concept} {f : ConceptId → Option Concept}
    {g : ConceptId → Option Concept} {e : ConceptId} (members : ∀ a, a ∈ prior ↔ Member f e a)
    (lookup : setting.lookup (.model model) = fun id => .ok (g id)) (succeeds : Succeeds f e s latest)
    (run : previousIteration s model prior setting = .ok previous) :
    previous = latest.bind fun t => (t.ref? Property.iterationIid).bind g := by
  unfold previousIteration at run
  dsimp only at run
  cases succeeds with
  | first alone number source =>
    rw [Concept.ref?, source] at run
    cases run
    rfl
  | @next t member latest room number source =>
    have here : prior.find? (fun a => a.id = t.id) = some t := by
      have inside := (members t).mpr member
      cases found : prior.find? fun a => a.id = t.id with
      | none => simpa using List.find?_eq_none.mp found t inside
      | some a =>
        have same : a.id = t.id := by simpa using List.find?_some found
        have stored := ((members a).mp (List.mem_of_find?_eq_some found)).stored
        rw [same, member.stored] at stored
        exact stored.symm
    rw [Concept.ref?, source] at run
    simp only [Option.bind_some, PropertyValue.ref?, here] at run
    rw [Option.bind_some]
    cases named : t.ref? Property.iterationIid with
    | none =>
      rw [named] at run
      cases run
      rfl
    | some id =>
      rw [named, lookup] at run
      exact (Except.ok.inj run).symm

end IterationSetup

namespace Batch

open IterationSetup

variable {env : Setting} {p : Partition} {d d' : Draft}

/-- A new iteration setup `s` in the setup `e` of an engineering model, which becomes `e'`. It comes after
the latest one there, and what it follows is the iteration of that one. -/
structure Begun (p : Partition) (d d' : Draft) (e s e' : Concept) (latest : Option Concept)
    (prior : List Concept) (model id : ConceptId) (previous : Option Concept) : Prop where
  fresh : d.find? p s.id = none
  there : d.find? p e.id = some e
  owner : e.conceptType = .engineeringModelSetup
  names : e.ref? Property.engineeringModelIid = some model
  kind : s.conceptType = .iterationSetup
  container : s.container = some e.id
  thawed : isFrozen s = false
  backed : s.ref? Property.iterationIid = some id
  relists : Relists setupList (d.revision p) e e'
  store : d'.find? p = Forest.place (Forest.place (d.find? p) s) e'
  elsewhere : ∀ q, q ≠ p → d'.find? q = d.find? q
  members : ∀ a, a ∈ prior ↔ Member (d.find? p) e.id a
  succeeds : Succeeds (d.find? p) e.id s latest
  follows : previous = latest.bind fun t =>
    (t.ref? Property.iterationIid).bind (d'.find? (.model model))

namespace Begun

variable {e s e' : Concept} {latest previous : Option Concept} {prior : List Concept}
  {model id : ConceptId}

/-- The container lists the setup besides, and is otherwise as it was. -/
theorem listing (begun : Begun p d d' e s e' latest prior model id previous) :
    e'.id = e.id ∧ e'.outline = e.outline ∧ e'.accessOverride = e.accessOverride ∧
      ∀ name, name ≠ Property.iterationSetup → e'.property? name = e.property? name := by
  obtain ⟨value, rfl⟩ := begun.relists
  exact ⟨rfl, rfl, rfl, fun name other => Concept.property?_setProperty_ne e value other⟩

theorem stored (begun : Begun p d d' e s e' latest prior model id previous) :
    d'.find? p e'.id = some e' ∧ d'.find? p s.id = some s ∧ s.id ≠ e'.id := by
  have apart : s.id ≠ e'.id := by
    rw [begun.listing.1]
    intro same
    have there := begun.there
    rw [← same, begun.fresh] at there
    cases there
  rw [begun.store]
  exact ⟨place_eq_some_iff.mpr (.inl ⟨rfl, rfl⟩),
    place_eq_some_iff.mpr (.inr ⟨apart, place_eq_some_iff.mpr (.inl ⟨rfl, rfl⟩)⟩), apart⟩

/-- The container is a setup of an engineering model after the creation too. -/
theorem owner_after (begun : Begun p d d' e s e' latest prior model id previous) :
    e'.conceptType = .engineeringModelSetup :=
  (congrArg Outline.conceptType begun.listing.2.1).trans begun.owner

/-- The setups that were there are there after the creation too, besides the container. -/
theorem member_after (forest : Forest (d.find? p)) (begun : Begun p d d' e s e' latest prior model id previous)
    {a : Concept} (inside : a ∈ prior) : Member (d'.find? p) e.id a ∧ a.id ≠ e'.id := by
  have member : Member (d'.find? p) e.id a := by
    rw [begun.store]
    exact ((begun.members a).mp inside).entered forest begun.fresh begun.listing.1
  refine ⟨member, fun same => ?_⟩
  have stored := member.stored
  rw [same, begun.stored.1] at stored
  cases stored
  cases begun.owner_after.symm.trans member.kind

theorem previous_stored (begun : Begun p d d' e s e' latest prior model id previous) {former : Concept}
    (same : previous = some former) : ∃ y, d'.find? (.model model) y = some former := by
  obtain ⟨t, -, follows⟩ := Option.bind_eq_some_iff.mp (begun.follows.symm.trans same)
  obtain ⟨y, -, stored⟩ := Option.bind_eq_some_iff.mp follows
  exact ⟨y, stored⟩

/-- The updates of the handover cause nothing. -/
theorem updates_calm (begun : Begun p d d' e s e' latest prior model id previous) {time : Instant} :
    ∀ x ∈ (selecting e' s :: freezing time prior).map (place p), x.2.Calm := by
  intro x member
  obtain ⟨y, caused, rfl⟩ := List.mem_map.mp member
  rcases List.mem_cons.mp caused with rfl | freezes
  · show e'.conceptType ≠ _ ∧ e'.conceptType ≠ _
    rw [begun.owner_after]
    decide
  · obtain ⟨a, chosen, rfl⟩ := List.mem_map.mp freezes
    show a.conceptType ≠ _ ∧ a.conceptType ≠ _
    rw [((begun.members a).mp (List.mem_filter.mp chosen).1).kind]
    decide

end Begun

/-- What is assigned to a new setup before it is stored makes it come after those that are there. -/
theorem Joined.succeeds {c c' e e' : Concept} {orderKey : Option Int64} {cascades : List Cascade}
    {q : Containment} (standard : env.registry = Registry.standard) (forest : Forest (d.find? p))
    (kind : c.conceptType = .iterationSetup) (owner : e.conceptType = .engineeringModelSetup)
    (joined : Joined env p d c orderKey cascades d' c' e e' q) :
    isFrozen c' = false ∧
      ∃ latest, Succeeds (d.find? p) e.id { c' with revisionNumber := d.revision p } latest := by
  obtain ⟨s, t, o, concept, run, -, answer⟩ := joined.request.hooked.iterationSetup standard
    (c.withoutChildren_conceptType.trans kind)
  obtain ⟨rfl, -⟩ := answer
  obtain ⟨-, held, prior, number, named, same, listed, next, -, result⟩ := beforeCreate_ok run
  cases same
  have absent : d.find? p s.concept.id = none := by
    rw [concept, Concept.withoutChildren_id, joined.request.fresh]
  rw [result]
  refine ⟨?_, latest? prior,
    assigned_succeeds (siblings_of_absent rfl forest absent joined.there owner listed) next⟩
  simp [isFrozen, assigned, Concept.property?_setProperty, Property.frozenOn,
    Property.sourceIterationSetup, PropertyValue.timestamp?]

theorem CreateEffect.begun {c : Concept} {orderKey : Option Int64} {cascades : List Cascade}
    (standard : env.registry = Registry.standard) (forest : Forest (d.find? p))
    (kind : c.conceptType = .iterationSetup) (effect : CreateEffect env p d c orderKey cascades d') :
    ∃ e s e' latest prior model id previous contents context,
      s.id = c.id ∧ s.outline = c.outline ∧ Begun p d d' e s e' latest prior model id previous ∧
      Begins (d'.hookSetting env p context (some e')) s e' prior model id previous contents cascades := by
  have forest' := effect.forest standard forest
  obtain ⟨c', e, e', q, joined⟩ := effect.joined standard forest (by rw [kind]; rfl)
  have declared := joined.declared
  have owner : e.conceptType = .engineeringModelSetup := by
    rw [kind] at declared
    exact model_of_containmentFor? declared
  obtain rfl : q = setupList := by
    rw [kind, owner] at declared
    exact (Option.some.inj declared).symm
  obtain ⟨thawed, latest, succeeds⟩ := joined.succeeds standard forest kind owner
  obtain ⟨same, outline, -⟩ := joined.request.child standard
  have fresh : d.find? p c'.id = none := same ▸ joined.request.fresh
  have type : c'.conceptType = .iterationSetup := (congrArg Outline.conceptType outline).trans kind
  have container : c'.container = some e.id :=
    (congrArg Outline.container outline).trans joined.container
  have relists := joined.relists
  have store := joined.store
  obtain ⟨value, rfl⟩ := joined.relists
  obtain ⟨c'', after, rfl, hooked⟩ := joined.hooked
  rcases hooked.created standard with ⟨other, -⟩ |
    ⟨-, parent, prior, model, id, previous, contents, begins⟩ | ⟨-, other, -⟩
  · cases type.symm.trans other
  · cases begins.held
    rw [store] at forest'
    have members := siblings_of_entered (by rw [← store]; rfl) forest forest' fresh owner begins.listed
    have names : e.ref? Property.engineeringModelIid = some model := by
      rw [← begins.owner, Concept.ref?, Concept.ref?]
      exact congrArg (Option.bind · _) (Concept.property?_setProperty_ne e value (by decide)).symm
    refine ⟨e, { c' with revisionNumber := d.revision p }, _, latest, prior, model, id, previous,
      contents, _, same, outline, ?_, begins⟩
    exact
      { fresh, there := joined.there, owner, names, container, thawed, relists, store, members, succeeds
        kind := type
        backed := begins.named
        elsewhere := fun q other => (Effect.create effect).elsewhere other
        follows := previousIteration_eq members rfl succeeds begins.follows }
  · exact absurd type other

end Batch

end ConceptLedger
