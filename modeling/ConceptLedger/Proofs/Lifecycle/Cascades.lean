import ConceptLedger.Proofs.Containment.Origin
import ConceptLedger.Proofs.Lifecycle.Effect

/-!
What operations cause under the standard registry. Only the creation and the removal of setups cause
anything: a setup of an engineering model comes and goes with the root of its model, and one of an
iteration with its iteration, which is filled with copies and follows the updates of other setups.
-/

namespace ConceptLedger.Batch

open Step Lifecycle Forest IterationSetup

variable {env : Setting} {p : Partition} {d d' : Draft} {security : SecurityContext}
  {occasion : Occasion} {former c c' : Concept} {container : Option Concept} {outcome : HookOutcome}

/-- Only the hooks after a creation or a deletion ask for anything. -/
theorem Hooked.quiet (standard : env.registry = Registry.standard)
    (early : occasion.phase.isBefore = true ∨ occasion.phase = .afterUpdate)
    (hooked : Hooked env p d security occasion c container c' outcome) : outcome.cascades = [] := by
  rcases hooked.standard_cases standard with ⟨-, s, t, o, -, run, cascades, -⟩ |
    ⟨-, s, t, o, -, run, cascades, -⟩ | ⟨-, -, -, rfl⟩
  · rw [cascades]
    cases occasion with
    | beforeCreate => rw [(EngineeringModelSetup.beforeCreate_ok run).1]
    | beforeUpdate former => rw [(EngineeringModelSetup.beforeUpdate_ok (Hook.check_ok run).1).1]
    | afterUpdate former | beforeDelete former => rw [← (pure_eq_ok_iff.mp run).1]
    | afterCreate | afterDelete former => simp [Occasion.phase, Phase.isBefore] at early
  · rw [cascades]
    cases occasion with
    | beforeCreate => rw [(IterationSetup.beforeCreate_ok run).1]
    | beforeUpdate former => rw [(IterationSetup.beforeUpdate_ok (Hook.check_ok run).1).1]
    | afterUpdate former => rw [← (pure_eq_ok_iff.mp run).1]
    | beforeDelete former =>
      obtain ⟨-, ⟨-, rfl, -⟩ | ⟨-, rfl, -⟩ | ⟨-, rfl, -⟩⟩ := IterationSetup.beforeDelete_ok run <;> rfl
    | afterCreate | afterDelete former => simp [Occasion.phase, Phase.isBefore] at early
  · rfl

/-- What the hooks ask for after a creation. -/
theorem Hooked.created (standard : env.registry = Registry.standard)
    (hooked : Hooked env p d security .afterCreate c container c' outcome) :
    (c.conceptType = .engineeringModelSetup ∧ ∃ model,
      c.ref? Property.engineeringModelIid = some model ∧
      outcome.cascades =
        [creating (.model model) (EngineeringModelSetup.rootOf c model) none]) ∨
    (c.conceptType = .iterationSetup ∧ ∃ parent prior model id previous contents,
      Begins (d.hookSetting env p security container) c parent prior model id previous contents
        outcome.cascades) ∨
    (c.conceptType ≠ .engineeringModelSetup ∧ c.conceptType ≠ .iterationSetup ∧
      outcome.cascades = []) := by
  rcases hooked.standard_cases standard with ⟨kind, s, t, o, rfl, run, cascades, -⟩ |
    ⟨kind, s, t, o, rfl, run, cascades, -⟩ | ⟨model, iteration, -, rfl⟩
  · obtain ⟨model, named, caused⟩ := EngineeringModelSetup.afterCreate_ok (Hook.check_ok run).1
    exact .inl ⟨kind, model, named, cascades.trans caused⟩
  · rw [cascades]
    exact .inr (.inl ⟨kind, IterationSetup.afterCreate_ok run⟩)
  · exact .inr (.inr ⟨model, iteration, rfl⟩)

/-- What the hooks ask for after a deletion. -/
theorem Hooked.deleted (standard : env.registry = Registry.standard)
    (hooked : Hooked env p d security (.afterDelete former) c container c' outcome) :
    (c.conceptType = .engineeringModelSetup ∧ ∃ model,
      former.ref? Property.engineeringModelIid = some model ∧
      outcome.cascades = [⟨some (.model model), .delete model .engineeringModel⟩]) ∨
    (c.conceptType = .iterationSetup ∧ isFrozen former = false ∧ ∃ parent model id,
      container = some parent ∧ parent.ref? Property.engineeringModelIid = some model ∧
      former.ref? Property.iterationIid = some id ∧
      outcome.cascades = [⟨some (.model model), .delete id .iteration⟩]) ∨
    outcome.cascades = [] := by
  rcases hooked.standard_cases standard with ⟨kind, s, t, o, rfl, run, cascades, -⟩ |
    ⟨kind, s, t, o, rfl, run, cascades, -⟩ | ⟨-, -, -, rfl⟩
  · rw [cascades]
    rcases EngineeringModelSetup.afterDelete_ok (lift_eq_ok_iff.mp run).1 with none | deletes
    · exact .inr (.inr none)
    · exact .inl ⟨kind, deletes⟩
  · rw [cascades]
    rcases IterationSetup.afterDelete_ok (lift_eq_ok_iff.mp run).1 with none | deletes
    · exact .inr (.inr none)
    · exact .inr (.inl ⟨kind, deletes⟩)
  · exact .inr (.inr rfl)

/-- What an operation causes. -/
inductive Caused (env : Setting) (p : Partition) (d d' : Draft) : Operation → List Cascade → Prop
  | nothing {operation : Operation} (plain : ¬ operation.CreatesSetup) :
      Caused env p d d' operation []
  | founded {c setup : Concept} {orderKey : Option Int64} {model : ConceptId}
      (kind : c.conceptType = .engineeringModelSetup) (stored : d'.find? p c.id = some setup)
      (outline : setup.outline = c.outline)
      (named : setup.ref? Property.engineeringModelIid = some model) :
      Caused env p d d' (.create c orderKey)
        [creating (.model model) (EngineeringModelSetup.rootOf setup model) none]
  | begun {c setup parent : Concept} {orderKey : Option Int64} {prior : List Concept}
      {model id : ConceptId} {previous : Option Concept} {contents cascades : List Cascade}
      {context : SecurityContext} (kind : c.conceptType = .iterationSetup)
      (stored : d'.find? p c.id = some setup) (outline : setup.outline = c.outline)
      (container : setup.container = some parent.id) (there : d'.find? p parent.id = some parent)
      (begins : Begins (d'.hookSetting env p context (some parent)) setup parent prior model id
        previous contents cascades) : Caused env p d d' (.create c orderKey) cascades
  | closed {id : ConceptId} {former : Concept} {model : ConceptId}
      (stored : d.find? p id = some former) (kind : former.conceptType = .engineeringModelSetup)
      (gone : d'.find? p id = none) (named : former.ref? Property.engineeringModelIid = some model) :
      Caused env p d d' (.delete id .engineeringModelSetup)
        [⟨some (.model model), .delete model .engineeringModel⟩]
  | ended {x : ConceptId} {former parent : Concept} {model id : ConceptId}
      (stored : d.find? p x = some former) (kind : former.conceptType = .iterationSetup)
      (gone : d'.find? p x = none) (container : former.container = some parent.id)
      (there : d'.find? p parent.id = some parent)
      (owner : parent.ref? Property.engineeringModelIid = some model)
      (named : former.ref? Property.iterationIid = some id) :
      Caused env p d d' (.delete x .iterationSetup)
        [⟨some (.model model), .delete id .iteration⟩]

/-- A new concept and its container as they are stored in the end. -/
theorem Entered.stored {child : Concept} {r : UInt64} {orderKey : Option Int64}
    {container container' : Option Concept}
    (entered : Entered p ((d.allot p).put p child false) r child orderKey container container' d')
    (absent : d.find? p child.id = none)
    (present : ∀ parent ∈ container, d.find? p parent.id = some parent) :
    d'.find? p child.id = some child ∧ ∀ parent' ∈ container', d'.find? p parent'.id = some parent' ∧
      ∃ parent ∈ container, parent'.id = parent.id := by
  cases entered with
  | root =>
    rw [find?_put_same, find?_allot_eq]
    exact ⟨place_eq_some_iff.mpr (.inl ⟨rfl, rfl⟩), fun _ none => nomatch none⟩
  | @under parent extended attached _ =>
    obtain ⟨q, -, -, value, -, rfl⟩ := Concept.attach_ok attached
    have there := present parent rfl
    rw [find?_put_same, find?_put_same, find?_allot_eq]
    refine ⟨place_eq_some_iff.mpr (.inr ⟨fun same => ?_, place_eq_some_iff.mpr (.inl ⟨rfl, rfl⟩)⟩), ?_⟩
    · rw [same] at absent
      cases absent.symm.trans there
    · rintro _ ⟨⟩
      exact ⟨place_eq_some_iff.mpr (.inl ⟨rfl, rfl⟩), parent, rfl, rfl⟩

/-- The container of a new concept is stored under its own identifier. -/
theorem CreateRequest.present (forest : Forest (d.find? p))
    (request : CreateRequest env p d c container c' outcome) :
    ∀ parent ∈ container, d.find? p parent.id = some parent := by
  rintro parent ⟨⟩
  obtain ⟨-, ⟨y, -, there⟩, -⟩ := request.housed
  obtain rfl := forest.keyed _ _ there
  exact there

theorem CreateEffect.caused {c : Concept} {orderKey : Option Int64} {cascades : List Cascade}
    (standard : env.registry = Registry.standard) (forest : Forest (d.find? p))
    (effect : CreateEffect env p d c orderKey cascades d') :
    Caused env p d d' (.create c orderKey) cascades := by
  cases effect with
  | skipped request skip =>
    cases request.hooked.create_ok standard ▸ skip
  | @stored container container' c' _ _ after _ request _ _ absent entered hooked =>
    rw [request.hooked.quiet standard (.inl rfl), List.nil_append]
    obtain ⟨id, outline, -, -⟩ := request.child standard
    obtain ⟨stored, held⟩ := entered.stored absent (request.present forest)
    have stored : d'.find? p c.id = some { c' with revisionNumber := d.revision p } := id ▸ stored
    have type : c'.conceptType = c.conceptType := congrArg Outline.conceptType outline
    rcases hooked.created standard with ⟨kind, model, named, caused⟩ |
      ⟨kind, parent', prior, model, x, previous, contents, begins⟩ | ⟨model, iteration, none⟩
    · rw [caused]
      exact .founded (type.symm.trans kind) stored outline named
    · have here : container' = some parent' := begins.held
      subst here
      obtain ⟨there, parent, rfl, same⟩ := held parent' rfl
      obtain ⟨-, ⟨y, named, there'⟩, -⟩ := request.housed
      have key := forest.keyed _ _ there'
      have container : c'.container = some parent'.id := by
        rw [same, key]
        exact (congrArg Outline.container outline).trans named
      exact .begun (type.symm.trans kind) stored outline container there begins
    · rw [none]
      refine .nothing fun setup => ?_
      rcases setup with kind | kind
      · exact model (type.trans kind)
      · exact iteration (type.trans kind)

theorem DeleteEffect.caused {id : ConceptId} {t : ConceptType} {cascades : List Cascade}
    (standard : env.registry = Registry.standard) (forest : Forest (d.find? p))
    (effect : DeleteEffect env p d id t cascades d') : Caused env p d d' (.delete id t) cascades := by
  -- a deletion that only marks a frozen setup causes nothing
  have none : ∀ {former c' c'' : Concept} {container container' : Option Concept}
      {before after : HookOutcome} {d'' : Draft} {r : UInt64},
      DeleteRequest env p d id t former container c' before → before.directive = .convertToUpdate →
      Hooked env p d'' (env.gate.contextFor env.actor p container) (.afterDelete former)
        { c' with revisionNumber := r } container' c'' after → after.cascades = [] := by
    intro former c' c'' container container' before after d'' r request convert hooked
    obtain ⟨others, iteration⟩ := request.hooked.delete_ok standard
    have type : c'.conceptType = former.conceptType :=
      congrArg Outline.conceptType (request.outline standard)
    rcases hooked.deleted standard with ⟨kind, -⟩ | ⟨kind, warm, -⟩ | none
    · have kind : former.conceptType = .engineeringModelSetup := type.symm.trans kind
      obtain ⟨-, rfl⟩ := others (by rw [kind]; decide)
      cases convert
    · obtain ⟨-, ⟨-, rfl, -⟩ | ⟨-, rfl, -⟩ | ⟨cold, -, -⟩⟩ := iteration (type.symm.trans kind)
      · cases convert
      · cases convert
      · cases warm.symm.trans cold
    · exact none
  cases effect with
  | skipped request _ =>
    rw [request.hooked.quiet standard (.inl rfl)]
    exact .nothing not_false
  | @kept former c' _ _ _ _ request convert _ hooked =>
    rw [request.hooked.quiet standard (.inl rfl),
      none (r := c'.revisionNumber) request convert hooked]
    exact .nothing not_false
  | marked request convert _ _ _ hooked =>
    rw [request.hooked.quiet standard (.inl rfl), none request convert hooked]
    exact .nothing not_false
  | @removed former c' _ container container' before after order d₁ _ request _ _ listed removed left
      hooked =>
    rw [request.hooked.quiet standard (.inl rfl), List.nil_append]
    obtain rfl := forest.keyed _ _ request.stored
    have type : c'.conceptType = former.conceptType :=
      congrArg Outline.conceptType (request.outline standard)
    have gone : d'.find? p former.id = .none :=
      (left.cutOff forest request.stored request.within
        (removed.cut forest request.stored listed)).gone .top
    rcases hooked.deleted standard with ⟨kind, model, named, caused⟩ |
      ⟨kind, -, parent', model, x, here, owner, named, caused⟩ | none
    · rw [← request.sameType, type.symm.trans kind, caused]
      exact .closed request.stored (type.symm.trans kind) gone named
    · rw [← request.sameType, type.symm.trans kind, caused]
      subst here
      have container : former.container = some parent'.id ∧ d'.find? p parent'.id = some parent' := by
        cases left with
        | under _ =>
          obtain ⟨y, named', there⟩ := Option.bind_eq_some_iff.mp request.within.symm
          obtain rfl := forest.keyed _ _ there
          refine ⟨named'.trans (congrArg some (Concept.detach_id _ _).symm), ?_⟩
          rw [find?_put_same]
          exact place_eq_some_iff.mpr (.inl ⟨rfl, rfl⟩)
      exact .ended request.stored (type.symm.trans kind) gone container.1 container.2 owner named
    · rw [none]
      exact .nothing not_false

/-- What an operation causes, whatever it is. -/
theorem Effect.caused {operation : Operation} {cascades : List Cascade}
    (standard : env.registry = Registry.standard) (forest : Forest (d.find? p))
    (effect : Effect env p d operation cascades d') : Caused env p d d' operation cascades := by
  cases effect with
  | create effect => exact effect.caused standard forest
  | update effect =>
    cases effect with
    | skipped request | unchanged request =>
      rw [request.hooked.quiet standard (.inl rfl)]
      exact .nothing not_false
    | stored request _ _ _ _ hooked =>
      rw [request.hooked.quiet standard (.inl rfl), hooked.quiet standard (.inr rfl)]
      exact .nothing not_false
  | delete effect => exact effect.caused standard forest

/-- The updates that are caused set a property of the lifecycle in a stored concept. -/
theorem Caused.update {operation : Operation} {cascades : List Cascade} {q : Partition} {u : Concept}
    (forest : Forest (d'.find? p)) (caused : Caused env p d d' operation cascades)
    (member : (q, .update u) ∈ cascades.map (place p)) :
    q = p ∧ ∃ s name value, d'.find? p s.id = some s ∧ name ∈ Lifecycle.properties ∧
      u = s.setProperty name value := by
  obtain ⟨x, inside, same⟩ := List.mem_map.mp member
  cases caused with
  | nothing => cases inside
  | founded =>
    obtain rfl := List.mem_singleton.mp inside
    cases same
  | @begun c setup parent _ prior _ _ _ _ _ _ kind stored outline container there begins =>
    have kind : setup.conceptType = .iterationSetup :=
      (congrArg Outline.conceptType outline).trans kind
    rw [begins.caused] at inside
    rcases List.mem_append.mp inside with updates | creations
    · rcases List.mem_cons.mp updates with rfl | freezes
      · cases same
        exact ⟨rfl, parent, _, _, there, by decide, rfl⟩
      · obtain ⟨s, chosen, rfl⟩ := List.mem_map.mp freezes
        cases same
        have model : parent.conceptType = .engineeringModelSetup := by
          obtain ⟨parent', q, there', fits⟩ := forest.container_stored stored container
          cases there.symm.trans there'
          rw [kind] at fits
          exact model_of_containmentFor? fits
        have sibling := (siblings_ok rfl forest there model begins.listed s).mp (List.mem_filter.mp chosen).1
        exact ⟨rfl, s, _, _, sibling.1.stored, by decide, rfl⟩
    · obtain ⟨c, orderKey, rfl⟩ := begins.creates x creations
      cases same
  | closed | ended =>
    obtain rfl := List.mem_singleton.mp inside
    cases same

/-- The creations that are caused are in partitions of models. -/
theorem Caused.create {operation : Operation} {cascades : List Cascade} {q : Partition} {c : Concept}
    {orderKey : Option Int64} (caused : Caused env p d d' operation cascades)
    (member : (q, .create c orderKey) ∈ cascades.map (place p)) : ∃ model, q = .model model := by
  obtain ⟨x, inside, same⟩ := List.mem_map.mp member
  cases caused with
  | nothing => cases inside
  | founded =>
    obtain rfl := List.mem_singleton.mp inside
    cases same
    exact ⟨_, rfl⟩
  | begun _ _ _ _ _ begins =>
    rw [begins.caused] at inside
    rcases List.mem_append.mp inside with updates | creations
    · rcases List.mem_cons.mp updates with rfl | freezes
      · cases same
      · obtain ⟨s, -, rfl⟩ := List.mem_map.mp freezes
        cases same
    · obtain ⟨c, orderKey, rfl⟩ := begins.creates x creations
      cases same
      exact ⟨_, rfl⟩
  | closed | ended =>
    obtain rfl := List.mem_singleton.mp inside
    cases same

end ConceptLedger.Batch
