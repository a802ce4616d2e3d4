import ConceptLedger.Proofs.Batch.Recording
import ConceptLedger.Proofs.Lifecycle.Handover
import ConceptLedger.Proofs.Lifecycle.Replica

/-!
The renewal of an iteration: the creation of an iteration setup with all that it causes. After the
handover its iteration is created at the root of the model, and the contents of the iteration that it
follows are created again under it. The copies were planned before the handover, which leaves alone what
is in models, so that they repeat what was stored before the setup was created.
-/

namespace ConceptLedger

open Lifecycle Forest IterationSetup

namespace IterationSetup

/-- What an iteration is created with: what the one that it follows has, and its setup. -/
theorem iterationOf_eq (s : Concept) (id model : ConceptId) (previous : Option Concept) :
    (iterationOf s id model previous).id = id ∧
      (iterationOf s id model previous).container = some model ∧
      (iterationOf s id model previous).property? Property.iterationSetup = some (.ref s.id) :=
  ⟨Concept.withoutChildren_id _, Concept.withoutChildren_container _,
    Concept.property?_setProperty_self _ _ _⟩

theorem iterationOf_like (s : Concept) (id model : ConceptId) (former : Concept) :
    (iterationOf s id model (some former)).accessOverride = former.accessOverride ∧
      ∀ name, name ≠ Property.iterationSetup →
        (∀ q ∈ former.conceptType.containment, q.name ≠ name) →
        (iterationOf s id model (some former)).property? name = former.property? name := by
  obtain ⟨-, -, override, properties⟩ := copyOf_eq former id model
  refine ⟨override, fun name other apart => ?_⟩
  exact (Concept.property?_setProperty_ne _ _ other).trans (properties name apart)

/-- Below an iteration there are neither roots nor iterations. -/
theorem of_height_lt {t : ConceptType} (below : t.height < ConceptType.iteration.height) :
    t.isRoot = false ∧ t ≠ .iteration := by
  cases t <;> first | exact absurd below (by decide) | exact ⟨rfl, nofun⟩

end IterationSetup

namespace IterationSetup

/-- The copies for a new iteration: of all the contents of the stored one that it follows, if any. -/
inductive Planned (f : ConceptId → Option Concept) (id : ConceptId) : Option Concept → List Copy → Prop
  | bare : Planned f id none []
  | like {former : Concept} {copies : List Copy} (kind : former.conceptType = .iteration)
      (stored : f former.id = some former) (plan : Plan f former.listing id copies) :
      Planned f id (some former) copies

/-- What is copied for a new iteration is below iterations. -/
theorem Planned.lower {f : ConceptId → Option Concept} {id : ConceptId} {previous : Option Concept}
    {copies : List Copy} (planned : Planned f id previous copies) (forest : Forest f) :
    ∀ i ∈ copies, i.source.conceptType.isRoot = false ∧ i.source.conceptType ≠ .iteration := by
  cases planned with
  | bare => exact fun i member => nomatch member
  | like kind stored plan =>
    refine fun i member => of_height_lt (plan.lower forest (fun entry listed child found => ?_) i member)
    obtain ⟨q, declared, child', found', type, -⟩ := Concept.of_mem_listing forest stored listed
    cases found.symm.trans found'
    rw [type, ← kind]
    exact ConceptType.height_target declared

end IterationSetup

namespace Batch

variable {env : Setting} {p : Partition} {d d₁ d₂ d₃ : Draft} {e s e' root : Concept}
  {latest previous : Option Concept} {prior : List Concept} {model id : ConceptId} {copies : List Copy}

theorem inModel_root (kind : root.conceptType = .engineeringModel) : InModel root.conceptType :=
  kind ▸ ⟨nofun, nofun, nofun⟩

/-- What is created at the root of an engineering model is an iteration. -/
theorem Effect.iteration {cascades : List Cascade} (standard : env.registry = Registry.standard)
    (forest : Forest (d.find? (.model model))) (there : d.find? (.model model) model = some root)
    (kind : root.conceptType = .engineeringModel)
    (effect : Effect env (.model model) d (.create (iterationOf s id model previous) none) cascades d₁) :
    (iterationOf s id model previous).conceptType = .iteration := by
  obtain ⟨-, named, -⟩ := iterationOf_eq s id model previous
  cases effect.reach standard forest with
  | founded fresh alone => cases named.symm.trans alone
  | @entered _ _ parent _ _ q _ fresh container there' declared =>
    obtain rfl : model = parent.id := Option.some.inj (named.symm.trans container)
    cases there.symm.trans there'
    obtain ⟨declared, target⟩ := ConceptType.containmentFor?_eq_some_iff.mp declared
    rw [kind] at declared
    obtain rfl := List.mem_singleton.mp declared
    exact target.symm

section Creating

variable {context : SecurityContext} {contents cascades : List Cascade}

/-- The copies that the creation of a setup asks for are planned by what was stored before it. -/
theorem Begun.planned (forests : d.Forested) (begun : Begun p d d₁ e s e' latest prior model id previous)
    (begins : Begins (d₁.hookSetting env p context (some e')) s e' prior model id previous contents
      cascades) (kind : ∀ former, previous = some former → former.conceptType = .iteration) :
    ∃ copies, Planned (d.find? (.model model)) id previous copies ∧
      contents = copies.map fun i => creating (.model model) i.payload i.key := by
  obtain ⟨_, _, run⟩ := begins.copied
  cases previous with
  | none =>
    obtain ⟨rfl, -⟩ := Step.pure_eq_ok_iff.mp run
    exact ⟨[], .bare, rfl⟩
  | some former =>
    have kind := kind former rfl
    have inside : InModel former.conceptType := kind ▸ ⟨nofun, nofun, nofun⟩
    obtain ⟨y, stored⟩ := begun.previous_stored rfl
    have stored := (begun.steady.stored_iff inside).mp stored
    obtain rfl := (forests _).keyed _ _ stored
    have deep : former.conceptType.height ≤ ConceptStore.extent d₁.view := by
      obtain ⟨there, here, apart⟩ := begun.stored
      have two : ({s.id, e'.id} : Finset ConceptId) ⊆ storedIds d₁.view.contents := by
        intro x member
        rcases Finset.mem_insert.mp member with rfl | member
        · exact mem_storedIds (p := p) (Option.isSome_of_eq_some here)
        · rw [Finset.mem_singleton.mp member]
          exact mem_storedIds (p := p) (Option.isSome_of_eq_some there)
      have bound := card_le_extent two
      rw [Finset.card_pair apart] at bound
      rwa [kind]
    obtain ⟨copies, plan, caused⟩ := copyContents_plan
      (fun z child found within => congrArg Except.ok ((begun.steady.stored_iff within).mpr found))
      (forests _) stored inside (Nat.lt_succ_of_le deep) run
    exact ⟨copies, .like kind stored plan, caused⟩

/-- After the handover the iteration is created with its contents. -/
theorem Begun.created (standard : env.registry = Registry.standard) (forests : d.Forested)
    (forests₁ : d₁.Forested) (forests₂ : d₂.Forested)
    (begun : Begun p d d₁ e s e' latest prior model id previous)
    (begins : Begins (d₁.hookSetting env p context (some e')) s e' prior model id previous contents
      cascades) (rooted : d₂.find? (.model model) model = some root)
    (engineering : root.conceptType = .engineeringModel)
    (chain : Chain env d₂ ((creating (.model model) (iterationOf s id model previous) none ::
      contents).map (place p)) d₃) :
    ∃ copies, Planned (d.find? (.model model)) id previous copies ∧ d₃.Forested ∧
      Created (.model model) d₂ ((iterationOf s id model previous, none) :: creations copies) d₃ := by
  have iteration : (iterationOf s id model previous).conceptType = .iteration := by
    cases chain with
    | next effect _ => exact effect.iteration standard (forests₂ _) rooted engineering
  have follows : ∀ former, previous = some former → former.conceptType = .iteration := by
    rintro former rfl
    exact (congrArg Outline.conceptType (copyOf_eq former id model).2.1).symm.trans iteration
  obtain ⟨copies, planned, rfl⟩ := begun.planned forests begins follows
  have calm := begins.calm (forests₁ _) begun.owner_after
    (fun a inside => ((begun.members a).mp inside).kind) (fun _ same => begun.previous_stored same) follows
  rw [begins.caused] at calm
  have calm := fun x inside => calm x (List.mem_append_right _ inside)
  rw [← List.append_nil (List.map _ _)] at chain
  obtain ⟨_, forests₃, steps, done⟩ := chain.steps standard forests₂
    fun x member => (List.mem_map.mp member).elim fun y caused => caused.2 ▸ calm y caused.1
  cases done
  have unruled : ∀ a ∈ (iterationOf s id model previous, none) :: creations copies,
      Unruled a.1.conceptType := by
    intro a member
    rcases List.mem_cons.mp member with rfl | copy
    · exact iteration ▸ ⟨rfl, nofun, nofun⟩
    · obtain ⟨i, inside, rfl⟩ := mem_creations.mp copy
      have plain := calm (creating (.model model) i.payload i.key)
        (List.mem_cons_of_mem _ (List.mem_map_of_mem inside))
      exact ⟨i.payload_conceptType ▸ (planned.lower (forests _) i inside).1, fun kind => plain (.inl kind),
        fun kind => plain (.inr kind)⟩
  refine ⟨copies, planned, forests₃, Steps.created standard unruled ?_⟩
  simpa [creations, List.map_map, Function.comp_def, place, creating] using steps

end Creating

/-- The creation of an iteration setup with all that it causes. The drafts are those before it, with the
setup, with the updates, and with the iteration and its contents. -/
structure Renewal (p : Partition) (d d₁ d₂ d₃ : Draft) (e s e' : Concept) (latest : Option Concept)
    (prior : List Concept) (model id : ConceptId) (previous : Option Concept)
    (copies : List Copy) : Prop where
  before : d.Forested
  midway : d₂.Forested
  after : d₃.Forested
  begun : Begun p d d₁ e s e' latest prior model id previous
  handover : Handover d.view.time (d₁.find? p) (d₂.find? p) e' s.id prior
  elsewhere : ∀ q, q ≠ p → d₂.find? q = d₁.find? q
  root : ∃ root, d.find? (.model model) model = some root ∧ root.conceptType = .engineeringModel
  planned : Planned (d.find? (.model model)) id previous copies
  created : Created (.model model) d₂ ((iterationOf s id model previous, none) :: creations copies) d₃

/-- A chain that begins with the creation of an iteration setup, for a model with a proper root. -/
theorem Chain.renewal {c : Concept} {orderKey : Option Int64}
    (standard : env.registry = Registry.standard) (forests : d.Forested)
    (cold : ∀ y a, Member (d.find? p) y a → a.isSoftDeleted = true → isFrozen a = true)
    (kind : c.conceptType = .iterationSetup) (container : c.container = some e.id)
    (there : d.find? p e.id = some e) (names : e.ref? Property.engineeringModelIid = some model)
    (rooted : d.find? (.model model) model = some root)
    (engineering : root.conceptType = .engineeringModel)
    (chain : Chain env d [(p, .create c orderKey)] d₃) :
    ∃ d₁ d₂ s e' latest prior id previous copies, s.id = c.id ∧
      Renewal p d d₁ d₂ d₃ e s e' latest prior model id previous copies := by
  cases chain with
  | @next _ d₁ _ _ _ cascades _ effect later =>
    have forests₁ := effect.forested standard forests
    obtain ⟨_, view⟩ := (Writes.of_effect effect).view
    have time : d₁.view.time = d.view.time := by rw [view]
    cases effect with
    | create effect =>
      obtain ⟨e₀, s, e', latest, prior, model₀, id, previous, contents, context, same, outline, begun,
        begins⟩ := effect.begun standard (forests p) kind
      -- the setup is created in the model that was named
      have above : s.container = c.container := congrArg Outline.container outline
      have here : e₀.id = e.id :=
        Option.some.inj (begun.container.symm.trans (above.trans container))
      obtain rfl : e = e₀ := Option.some.inj (there.symm.trans (here ▸ begun.there))
      obtain rfl : model = model₀ := Option.some.inj (names.symm.trans begun.names)
      rw [List.nil_append, begins.caused, List.map_append] at later
      obtain ⟨d₂, forests₂, steps, later⟩ := later.steps standard forests₁ begun.updates_calm
      obtain ⟨handover, elsewhere⟩ := begun.handover standard (forests p) (cold e.id) steps
      have steady := begun.steady.trans (steady_of_handover (forests p) begun handover elsewhere)
      obtain ⟨copies, planned, after, created⟩ := begun.created standard forests forests₁ forests₂ begins
        ((steady.stored_iff (inModel_root engineering)).mpr rooted) engineering later
      exact ⟨d₁, d₂, s, e', latest, prior, id, previous, copies, same,
        { before := forests, midway := forests₂, after, begun, handover := time ▸ handover, elsewhere, planned, created
          root := ⟨root, rooted, engineering⟩ }⟩

namespace Renewal

section Drafts

variable {q : Partition} {x : ConceptId} {c : Concept}
  (renewal : Renewal p d d₁ d₂ d₃ e s e' latest prior model id previous copies)

include renewal

theorem steady : Steady d.find? d₂.find? :=
  renewal.begun.steady.trans
    (steady_of_handover (renewal.before p) renewal.begun renewal.handover renewal.elsewhere)

theorem rooted :
    ∃ root, d₂.find? (.model model) model = some root ∧ root.conceptType = .engineeringModel := by
  obtain ⟨root, stored, kind⟩ := renewal.root
  exact ⟨root, (renewal.steady.stored_iff (inModel_root kind)).mpr stored, kind⟩

/-- What cannot be in a model is not stored in place of the root. -/
theorem ne_root (stored : d₂.find? q x = some c) (outer : ¬ InModel c.conceptType) :
    q = .model model → x ≠ model := by
  rintro rfl rfl
  obtain ⟨root, rooted, kind⟩ := renewal.rooted
  cases stored.symm.trans rooted
  exact outer (inModel_root kind)

/-- What is created is under the root or under what is created too. -/
theorem containers {a : Concept × Option Int64}
    (member : a ∈ (iterationOf s id model previous, none) :: creations copies) :
    a.1.container = some model ∨ ∃ y, a.1.container = some y ∧ d₂.find? (.model model) y = none := by
  have absent := renewal.created.fresh.1
  rcases List.mem_cons.mp member with rfl | copy
  · exact .inl (iterationOf_eq s id model previous).2.1
  · obtain ⟨i, inside, rfl⟩ := mem_creations.mp copy
    refine .inr ⟨_, i.payload_container, ?_⟩
    have parents : i.parent = id ∨ ∃ j ∈ copies, i.parent = j.id := by
      cases renewal.planned with
      | bare => cases inside
      | like kind stored plan => exact plan.parents i inside
    rcases parents with own | ⟨j, inside', own⟩
    · have top := absent _ List.mem_cons_self
      rwa [(iterationOf_eq s id model previous).1, ← own] at top
    · have other := absent _ (List.mem_cons_of_mem _ (mem_creations.mpr ⟨j, inside', rfl⟩))
      rwa [j.payload_id, ← own] at other

/-- The creations leave everything as it is but the root. -/
theorem late (stored : d₂.find? q x = some c) (inner : q = .model model → x ≠ model) :
    d₃.find? q x = some c := by
  by_cases here : q = .model model
  · subst here
    refine renewal.created.kept stored fun a member named => ?_
    rcases renewal.containers member with top | ⟨y, below, none⟩
    · exact inner rfl (Option.some.inj (named.symm.trans top))
    · cases named.symm.trans below
      cases none.symm.trans stored
  · rw [renewal.created.elsewhere here]
    exact stored

/-- Apart from the root, the container of the setup and its siblings that are frozen, nothing changes. -/
theorem kept (stored : d.find? q x = some c) (inner : q = .model model → x ≠ model)
    (apart : q = p → x ≠ e.id ∧ ∀ a, Member (d.find? p) e.id a → isFrozen a = false → a.id ≠ x) :
    d₃.find? q x = some c := by
  refine renewal.late ?_ inner
  by_cases here : q = p
  · subst here
    obtain ⟨other, cold⟩ := apart rfl
    have new : x ≠ s.id := by
      rintro rfl
      cases renewal.begun.fresh.symm.trans stored
    rw [← renewal.begun.listing.1] at other
    rw [renewal.handover.rest x other fun a inside => cold a ((renewal.begun.members a).mp inside),
      renewal.begun.store, Forest.place, if_neg other, Forest.place, if_neg new]
    exact stored
  · rw [renewal.elsewhere q here, renewal.begun.elsewhere q here]
    exact stored

/-- The container of the setup selects it. -/
theorem selected : ∃ e'', d₃.find? p e.id = some e'' ∧ Chooses s.id e' e'' := by
  obtain ⟨e'', stored, chooses⟩ := renewal.handover.selected
  have owner : e''.conceptType = .engineeringModelSetup :=
    (congrArg Outline.conceptType chooses.outline).trans renewal.begun.owner_after
  rw [renewal.begun.listing.1] at stored
  exact ⟨e'', renewal.late stored (renewal.ne_root stored (not_inModel_of_setup (.inl owner))), chooses⟩

/-- Siblings that were not frozen are frozen. -/
theorem frozen {a : Concept} (member : Member (d.find? p) e.id a) (warm : isFrozen a = false) :
    ∃ a', d₃.find? p a.id = some a' ∧ FrozenAt d.view.time a a' := by
  obtain ⟨a', stored, frozen⟩ :=
    renewal.handover.frozen a ((renewal.begun.members a).mpr member) warm
  have kind : a'.conceptType = .iterationSetup := by
    obtain ⟨r, rfl⟩ := frozen
    exact member.kind
  exact ⟨a', renewal.late stored (renewal.ne_root stored (not_inModel_of_setup (.inr kind))), frozen⟩

/-- Siblings that were frozen before are left as they are. -/
theorem cold {a : Concept} (member : Member (d.find? p) e.id a) (frozen : isFrozen a = true) :
    d₃.find? p a.id = some a := by
  refine renewal.kept member.stored ?_ fun _ => ⟨fun same => ?_, fun b member' warm same => ?_⟩
  · rintro rfl same
    obtain ⟨root, rooted, kind⟩ := renewal.root
    have stored := member.stored
    rw [same, rooted] at stored
    cases stored
    cases kind.symm.trans member.kind
  · have there := renewal.begun.there
    rw [← same, member.stored] at there
    cases there
    cases renewal.begun.owner.symm.trans member.kind
  · have stored := member'.stored
    rw [same, member.stored] at stored
    cases stored
    cases warm.symm.trans frozen

/-- The new setup is stored among its siblings. -/
theorem member : Member (d₃.find? p) e.id s := by
  obtain ⟨-, stored, apart⟩ := renewal.begun.stored
  refine ⟨?_, renewal.begun.kind, renewal.begun.container⟩
  have stored : d₂.find? p s.id = some s := by
    rw [renewal.handover.rest s.id apart fun a inside _ same => ?_]
    · exact stored
    · have before := ((renewal.begun.members a).mp inside).stored
      rw [same, renewal.begun.fresh] at before
      cases before
  exact renewal.late stored (renewal.ne_root stored (not_inModel_of_setup (.inr renewal.begun.kind)))

/-- What is created is stored with what is created under it, apart from the iteration. -/
theorem new {a : Concept × Option Int64}
    (member : a ∈ (iterationOf s id model previous, none) :: creations copies) :
    d.find? (.model model) a.1.id = none ∧ ∃ c', d₃.find? (.model model) a.1.id = some c' ∧
      Filled (childrenOf (creations copies) a.1.id) a.1.withoutChildren c' := by
  have absent := renewal.created.fresh.1 a member
  obtain ⟨c', stored, filled⟩ := renewal.created.new member
  refine ⟨renewal.steady.absent absent, c', stored, ?_⟩
  rwa [childrenOf_cons_of_ne] at filled
  rw [(iterationOf_eq s id model previous).2.1]
  intro top
  obtain rfl : model = a.1.id := Option.some.inj top
  obtain ⟨root, rooted, -⟩ := renewal.rooted
  cases absent.symm.trans rooted

theorem follows_iteration : ∀ former, previous = some former → former.conceptType = .iteration := by
  rintro former rfl
  cases renewal.planned with
  | like kind => exact kind

/-- The iteration of the setup is stored as it was created, up to what is contained in it. -/
theorem iteration : ∃ i, d.find? (.model model) id = none ∧ d₃.find? (.model model) id = some i ∧
    i.id = id ∧ i.outline = ⟨.iteration, some model⟩ ∧
    i.accessOverride = (iterationOf s id model previous).accessOverride ∧
    (∀ name, (∀ q ∈ ConceptType.iteration.containment, q.name ≠ name) →
      i.property? name = (iterationOf s id model previous).property? name) ∧
    (previous = none → ∀ q ∈ ConceptType.iteration.containment, i.entries q = []) := by
  obtain ⟨same, container, -⟩ := iterationOf_eq s id model previous
  have kind : (iterationOf s id model previous).conceptType = .iteration :=
    iterationOf_conceptType renewal.follows_iteration
  obtain ⟨absent, i, stored, filled⟩ := renewal.new List.mem_cons_self
  rw [same] at absent stored filled
  have bare := Concept.bare_eq_iff.mp (iterationOf s id model previous).withoutChildren_bare
  have type : (iterationOf s id model previous).withoutChildren.conceptType = .iteration :=
    bare.2.1.trans kind
  refine ⟨i, absent, stored, filled.id.trans (bare.1.trans same), ?_, filled.override.trans bare.2.2.2.2,
    fun name other => ?_, fun alone q declared => ?_⟩
  · rw [filled.outline, Concept.outline, type, bare.2.2.2.1, container]
  · rw [filled.properties name (by rwa [type])]
    exact Concept.property?_withoutChildren_other (by rwa [kind])
  · have inserts := filled.lists q (by rwa [type])
    have none : copies = [] := by
      have planned := renewal.planned
      rw [alone] at planned
      cases planned
      rfl
    rw [none, Concept.entries_withoutChildren (by rwa [kind])] at inserts
    exact inserts.eq_append (by simp [childrenOf, creations]) (by simp [childrenOf, creations])

/-- No other iteration comes to those that were stored. -/
theorem only (stored : d₃.find? q x = some c) (kind : c.conceptType = .iteration) (fresh : d.find? q x = none) :
    q = .model model ∧ x = id := by
  have inside : InModel c.conceptType := kind ▸ ⟨nofun, nofun, nofun⟩
  -- an iteration that was stored before the creations was stored before the setup
  have late : ∀ {c₀}, d₂.find? q x = some c₀ → c₀.conceptType ≠ .iteration := by
    intro c₀ before type
    rw [renewal.steady.stored_iff (type ▸ ⟨nofun, nofun, nofun⟩), fresh] at before
    cases before
  by_cases here : q = .model model
  · subst here
    refine ⟨rfl, ?_⟩
    cases before : d₂.find? (.model model) x with
    | some c₀ =>
      obtain ⟨c', after, filled⟩ := renewal.created.old before
        (renewal.midway _ |>.keyed _ _ before)
      cases stored.symm.trans after
      exact absurd (filled.conceptType.symm.trans kind) (late before)
    | none =>
      by_contra other
      have absent := renewal.created.absent before fun a member same => ?_
      · cases absent.symm.trans stored
      · rcases List.mem_cons.mp member with rfl | copy
        · exact other (same.symm.trans (iterationOf_eq s id model previous).1)
        · obtain ⟨i, inside, rfl⟩ := mem_creations.mp copy
          obtain ⟨c', after, filled⟩ := renewal.created.new member
          rw [same] at after
          cases stored.symm.trans after
          have type := filled.conceptType
          rw [i.payload.withoutChildren_conceptType, i.payload_conceptType, kind] at type
          exact (renewal.planned.lower (renewal.before _) i inside).2 type.symm
  · rw [renewal.created.elsewhere here] at stored
    exact absurd kind (late stored)

/-- What the iteration follows is that of the latest setup, if it was stored. -/
theorem follows : previous = latest.bind fun t =>
    (t.ref? Property.iterationIid).bind (d.find? (.model model)) := by
  have follows := renewal.begun.follows
  have planned := renewal.planned
  cases latest with
  | none => exact follows
  | some t =>
    rw [Option.bind_some] at follows ⊢
    cases named : t.ref? Property.iterationIid with
    | none => rwa [named] at follows
    | some y =>
      rw [named, Option.bind_some] at follows
      rw [Option.bind_some]
      cases planned with
      | bare => exact (renewal.begun.steady.absent follows.symm).symm
      | like kind =>
        exact ((renewal.begun.steady.stored_iff (kind ▸ ⟨nofun, nofun, nofun⟩)).mp follows.symm).symm

end Drafts

/-- What was contained in the iteration before is repeated in the new one. -/
theorem replica {former : Concept}
    (renewal : Renewal p d d₁ d₂ d₃ e s e' latest prior model id (some former) copies)
    (tidy : Tidy (d.find? (.model model)) former.id) :
    ∃ copy, Replica (d.find? (.model model)) (d₃.find? (.model model)) former.id id copy := by
  have once := renewal.created.fresh.2
  have copyIds : (creations copies).map (·.1.id) = copies.map (·.id) := by
    rw [creations, List.map_map]
    exact List.map_congr_left fun i _ => i.payload_id
  rw [List.map_cons, copyIds, (iterationOf_eq s id model _).1] at once
  have copied := fun i (inside : i ∈ copies) =>
    i.payload_id ▸ renewal.new (List.mem_cons_of_mem _ (mem_creations.mpr ⟨i, inside, rfl⟩))
  obtain ⟨absent, i, stored, filled⟩ := renewal.new List.mem_cons_self
  rw [(iterationOf_eq s id model _).1] at absent stored filled
  cases renewal.planned with
  | like kind there plan =>
    have repeated : Repeated (d.find? (.model model)) (d₃.find? (.model model)) former id copies :=
      { forest := renewal.before _
        stored := there
        plan
        fresh := once
        after := renewal.after _
        unused := ⟨absent, fun i inside => (copied i inside).1⟩
        head := ⟨iterationOf s id model (some former), i, stored,
          congrArg Outline.conceptType (copyOf_eq former id model).2.1, filled⟩
        copied := fun i inside => (copied i inside).2 }
    exact ⟨_, repeated.replica tidy⟩

end Renewal

end Batch

end ConceptLedger
