import ConceptLedger.Proofs.Lifecycle.Cascades
import ConceptLedger.Proofs.Lifecycle.Iterations
import ConceptLedger.Proofs.Store.Queue

/-!
The lifecycle of an iteration setup goes one way. Whatever operation succeeds, with all that it
causes: what a setup was given stays, a frozen setup stays frozen and one that is marked stays marked.
A setup goes only with the model that contains it, or by its own deletion while it is neither frozen
nor selected, and only its own deletion marks it.
-/

namespace ConceptLedger

open Lifecycle Forest

namespace IterationSetup

/-- A value that is no floating-point number agrees only with itself. -/
theorem eq_of_optionAgrees {a b : Option PropertyValue} (apart : ∀ x, b ≠ some (.float x))
    (agree : PropertyValue.optionAgrees a b = true) : a = b := by
  cases a with
  | none =>
    cases b with
    | none => rfl
    | some y => cases agree
  | some x =>
    cases b with
    | none => cases agree
    | some y =>
      have agree : x.agrees y = true := agree
      cases y with
      | float y => exact absurd rfl (apart y)
      | _ => cases x <;> exact congrArg some (of_decide_eq_true agree)

/-- Setups whose fixed properties hold no floating-point numbers, so that they are compared exactly. -/
def Discrete (c : Concept) : Prop :=
  c.conceptType = .iterationSetup → ∀ name ∈ fixedProperties, ∀ x, c.property? name ≠ some (.float x)

/-- What is assigned to a new setup is a number and references, so that it is compared exactly. -/
theorem discrete_assigned {named : Concept} {number : Int64} {prior : List Concept} {id : ConceptId}
    (iteration : (assigned named number prior).ref? Property.iterationIid = some id) :
    Discrete (assigned named number prior) := by
  have numbered : (assigned named number prior).property? Property.iterationNumber =
      some (.int number) := by
    rw [assigned, Concept.property?_setProperty_ne _ _ (by decide),
      Concept.property?_setProperty_ne _ _ (by decide),
      Concept.property?_setProperty_ne _ _ (by decide), Concept.property?_setProperty_self]
  have sourced : (assigned named number prior).property? Property.sourceIterationSetup =
      some (sourceOf prior) := by
    rw [assigned, Concept.property?_setProperty_self]
  intro _ name member x same
  rcases List.mem_cons.mp member with rfl | member
  · rw [Concept.ref?, same] at iteration
    cases iteration
  · rcases List.mem_cons.mp member with rfl | member
    · cases numbered.symm.trans same
    · obtain rfl := List.mem_singleton.mp member
      have source := sourced.symm.trans same
      unfold sourceOf at source
      cases latest : latest? prior with
      | none | some =>
        rw [latest] at source
        cases source

/-- A later state of a setup. -/
structure Advances (s s' : Concept) : Prop where
  id : s'.id = s.id
  outline : s'.outline = s.outline
  fixed : ∀ name ∈ fixedProperties, s'.property? name = s.property? name
  frozen : isFrozen s = true → isFrozen s' = true
  deleted : s.isSoftDeleted = true → s'.isSoftDeleted = true

namespace Advances

variable {a b c : Concept}

theorem refl (c : Concept) : Advances c c :=
  ⟨rfl, rfl, fun _ _ => rfl, fun cold => cold, fun marked => marked⟩

theorem trans (first : Advances a b) (later : Advances b c) : Advances a c where
  id := later.id.trans first.id
  outline := later.outline.trans first.outline
  fixed name member := (later.fixed name member).trans (first.fixed name member)
  frozen cold := later.frozen (first.frozen cold)
  deleted marked := later.deleted (first.deleted marked)

theorem discrete (advances : Advances a b) (discrete : Discrete a) : Discrete b := by
  intro kind name member x same
  have type : b.conceptType = a.conceptType := congrArg Outline.conceptType advances.outline
  exact discrete (type.symm.trans kind) name member x ((advances.fixed name member).symm.trans same)

theorem stamped (advances : Advances a b) (r : UInt64) : Advances a { b with revisionNumber := r } :=
  ⟨advances.id, advances.outline, advances.fixed, advances.frozen, advances.deleted⟩

/-- A state with the same properties as before, whatever its revision. -/
theorem of_properties (id : b.id = a.id) (outline : b.outline = a.outline)
    (same : ∀ name, b.property? name = a.property? name) : Advances a b where
  id := id
  outline := outline
  fixed name _ := same name
  frozen := by
    unfold isFrozen
    rw [same]
    exact fun cold => cold
  deleted := by
    unfold Concept.isSoftDeleted
    rw [same]
    exact fun marked => marked

/-- What a permitted update makes of a setup. -/
theorem of_permitted {container : Option Concept} (discrete : Discrete a)
    (kind : a.conceptType = .iterationSetup) (id : b.id = a.id) (outline : b.outline = a.outline)
    (permitted : Permitted a b container) : Advances a b where
  id := id
  outline := outline
  fixed name member := eq_of_optionAgrees (discrete kind name member) (permitted.fixed name member)
  frozen := permitted.frozen
  deleted marked := permitted.deleted.trans marked

/-- What the deletion of a frozen setup makes of it. -/
theorem marking (c : Concept) : Advances c (c.setProperty Property.isDeleted (.bool true)) where
  id := rfl
  outline := rfl
  fixed name member := by
    refine Concept.property?_setProperty_ne c _ ?_
    rintro rfl
    revert member
    decide
  frozen cold := (isFrozen_setProperty_isDeleted c _).trans cold
  deleted _ := by
    unfold Concept.isSoftDeleted
    rw [Concept.property?_setProperty_self]
    rfl

end Advances

end IterationSetup

namespace Batch

open IterationSetup

variable {env : Setting} {p : Partition} {d d' : Draft} {x : ConceptId} {operation : Operation}
  {cascades : List Cascade} {former c : Concept}

/-- Whatever an operation makes of a stored setup follows it. It is marked only by its own deletion
when it is frozen. -/
theorem Origin.advances (standard : env.registry = Registry.standard) (forest : Forest (d.find? p))
    (before : d.find? p x = some former) (kind : former.conceptType = .iterationSetup)
    (discrete : Discrete former) (origin : Origin env p d x operation c) :
    Advances former c ∧ (c.isSoftDeleted = true → former.isSoftDeleted = true ∨
      operation = .delete x .iterationSetup ∧ isFrozen former = true) := by
  have contains : former.conceptType.containment = [] := by rw [kind]; rfl
  cases origin with
  | kept before' =>
    cases before.symm.trans before'
    exact ⟨.refl _, .inl⟩
  | handled own =>
    cases own with
    | created here request =>
      subst here
      cases request.fresh.symm.trans before
    | @updated _ _ _ c' _ _ _ here request =>
      subst here
      cases before.symm.trans request.stored
      have outline := request.outline standard
      have id : c'.id = former.id := (request.id standard).trans (forest.keyed _ _ before).symm
      obtain ⟨rfl, -, permitted, -⟩ := request.hooked.update_ok standard
      have permitted := permitted ((congrArg Outline.conceptType outline).trans kind)
      exact ⟨(Advances.of_permitted discrete kind id outline permitted).stamped _,
        fun marked => .inl (permitted.deleted.symm.trans marked)⟩
    | marked request convert =>
      cases before.symm.trans request.stored
      obtain ⟨-, ⟨-, rfl, -⟩ | ⟨-, rfl, -⟩ | ⟨cold, -, rfl, -⟩⟩ :=
        (request.hooked.delete_ok standard).2 kind
      · cases convert
      · cases convert
      · rw [← request.sameType, kind]
        exact ⟨(Advances.marking former).stamped _, fun _ => .inr ⟨rfl, cold⟩⟩
  | entered before' _ attached =>
    cases before.symm.trans before'
    obtain ⟨q, declared, -⟩ := Concept.attach_ok attached
    rw [contains] at declared
    cases declared
  | @left id _ _ _ before' =>
    cases before.symm.trans before'
    have same : ∀ name, (former.detach id).property? name = former.property? name := fun name =>
      Concept.property?_detach_other fun q declared => by
        rw [contains] at declared
        cases declared
    refine ⟨(Advances.of_properties (former.detach_id id) ?_ same).stamped _, fun marked => .inl ?_⟩
    · exact Concept.outline_eq (former.detach_conceptType id) (former.detach_container id)
    · have marked : (former.detach id).isSoftDeleted = true := marked
      unfold Concept.isSoftDeleted at marked ⊢
      rwa [same] at marked

/-- A deletion adds nothing. -/
theorem Effect.absent {id : ConceptId} {t : ConceptType} (standard : env.registry = Registry.standard)
    (forest : Forest (d.find? p)) (effect : Effect env p d (.delete id t) cascades d')
    (absent : d.find? p x = none) : d'.find? p x = none := by
  by_contra present
  obtain ⟨c, stored⟩ := Option.ne_none_iff_exists'.mp present
  rcases (effect.origin standard forest stored).outline standard with ⟨former, before, -⟩ |
    ⟨u, orderKey, created, -⟩
  · cases absent.symm.trans before
  · cases created

/-- A new setup is given an identifier, a number and a source, and so nothing to compare loosely. -/
theorem CreateEffect.discrete {orderKey : Option Int64} {c₀ setup : Concept}
    (standard : env.registry = Registry.standard) (forest : Forest (d.find? p))
    (effect : CreateEffect env p d c₀ orderKey cascades d') (stored : d'.find? p c₀.id = some setup) :
    Discrete setup := by
  cases effect with
  | skipped request skip => cases request.hooked.create_ok standard ▸ skip
  | @stored _ _ c' _ _ _ _ request _ _ absent entered hooked =>
    intro kind
    obtain ⟨id, outline, -, -⟩ := request.child standard
    have here := (entered.stored absent (request.present forest)).1
    have here : d'.find? p c₀.id = some { c' with revisionNumber := d.revision p } := id ▸ here
    cases stored.symm.trans here
    have given : c₀.withoutChildren.conceptType = .iterationSetup :=
      c₀.withoutChildren_conceptType.trans ((congrArg Outline.conceptType outline).symm.trans kind)
    obtain ⟨s, t, o, -, run, -, answer⟩ := request.hooked.iterationSetup standard given
    obtain ⟨-, _, prior, number, named, -, -, -, -, result⟩ := IterationSetup.beforeCreate_ok run
    obtain rfl : c' = assigned named number prior := answer.1.trans result
    rcases hooked.created standard with ⟨model, -⟩ | ⟨-, _, _, _, iteration, _, _, begins⟩ | ⟨-, other, -⟩
    · cases kind.symm.trans model
    · exact discrete_assigned begins.named kind
    · exact absurd kind other

theorem Origin.outline_eq (standard : env.registry = Registry.standard)
    (before : d.find? p x = some former) (origin : Origin env p d x operation c) :
    c.outline = former.outline := by
  rcases origin.relisted_or_handled with ⟨former', same⟩ | own
  · cases before.symm.trans same.before
    exact same.outline
  · cases own with
    | created here request =>
      subst here
      cases request.fresh.symm.trans before
    | updated here request =>
      subst here
      cases before.symm.trans request.stored
      have outline := request.outline standard
      exact outline
    | marked request =>
      cases before.symm.trans request.stored
      have outline := request.outline standard
      exact outline

/-- All stored setups are such as are compared exactly. -/
def DiscreteSetups (f : Stock) : Prop := ∀ q x c, f q x = some c → Discrete c

theorem Effect.discrete (standard : env.registry = Registry.standard) (forest : Forest (d.find? p))
    (discrete : DiscreteSetups d.find?) (effect : Effect env p d operation cascades d') :
    DiscreteSetups d'.find? := by
  intro q x c stored kind
  by_cases here : q = p
  · subst here
    have origin := effect.origin standard forest stored
    cases before : d.find? q x with
    | some former =>
      have type : c.conceptType = former.conceptType :=
        congrArg Outline.conceptType (origin.outline_eq standard before)
      have setup := discrete q x former before
      exact (origin.advances standard forest before (type.symm.trans kind) setup).1.discrete setup kind
    | none =>
      rcases origin.outline standard with ⟨former, there, -⟩ | ⟨u, orderKey, rfl, rfl, -⟩
      · cases before.symm.trans there
      · cases effect with
        | create effect => exact effect.discrete standard forest stored kind
  · rw [effect.elsewhere here] at stored
    exact discrete q x c stored kind

/-- What an operation leaves of a stored setup: a state that follows it, or nothing. It goes by its own
deletion while it is neither frozen nor selected, or with its container. -/
theorem Effect.advances (standard : env.registry = Registry.standard) (forest : Forest (d.find? p))
    (discrete : Discrete former) (before : d.find? p x = some former)
    (kind : former.conceptType = .iterationSetup) (effect : Effect env p d operation cascades d') :
    (∃ c, d'.find? p x = some c ∧ Advances former c ∧ (c.isSoftDeleted = true →
      former.isSoftDeleted = true ∨ operation = .delete x .iterationSetup ∧ isFrozen former = true)) ∨
    (d'.find? p x = none ∧ operation.kind = .delete ∧
      (operation = .delete x .iterationSetup ∧ isFrozen former = false ∧
        isCurrent x (former.container.bind (d.find? p)) = false ∨
      ∃ y, former.container = some y ∧ d'.find? p y = none)) := by
  have later : ∀ c, d'.find? p x = some c → Advances former c ∧ (c.isSoftDeleted = true →
      former.isSoftDeleted = true ∨ operation = .delete x .iterationSetup ∧ isFrozen former = true) :=
    fun c stored => (effect.origin standard forest stored).advances standard forest before kind discrete
  cases effect.fate standard forest with
  | stay rest =>
    obtain ⟨c, stored, -⟩ := rest x former before
    exact .inl ⟨c, stored, later c stored⟩
  | @fall id t top _ _ _ request proceed gone rest =>
    by_cases within : Outline.Within (outlines (d.find? p)) id x
    · refine .inr ⟨gone x within, rfl, ?_⟩
      cases within with
      | top =>
        cases before.symm.trans request.stored
        obtain rfl := forest.keyed _ _ before
        obtain ⟨free, ⟨warm, -⟩ | ⟨-, rfl, -⟩ | ⟨-, rfl, -⟩⟩ :=
          (request.hooked.delete_ok standard).2 kind
        · refine .inl ⟨by rw [← request.sameType, kind], warm, ?_⟩
          rw [← request.within]
          exact free
        · cases proceed
        · cases proceed
      | @under _ y u stored container above =>
        obtain ⟨former', before', rfl⟩ := outlines_eq_some_iff.mp stored
        cases before.symm.trans before'
        exact .inr ⟨y, container, gone y above⟩
    · obtain ⟨c, stored, -⟩ := rest x former within before
      exact .inl ⟨c, stored, later c stored⟩

/-- A deletion causes deletions only, and what is no deletion causes none. -/
theorem Caused.kind_iff (caused : Caused env p d d' operation cascades) :
    ∀ x ∈ cascades, x.operation.kind = .delete ↔ operation.kind = .delete := by
  intro x member
  cases caused with
  | nothing => cases member
  | founded | closed | ended =>
    obtain rfl := List.mem_singleton.mp member
    exact Iff.rfl
  | begun _ _ _ _ _ begins =>
    rw [begins.caused] at member
    rcases List.mem_append.mp member with updates | creation
    · rcases List.mem_cons.mp updates with rfl | freezes
      · exact ⟨nofun, nofun⟩
      · obtain ⟨s, -, rfl⟩ := List.mem_map.mp freezes
        exact ⟨nofun, nofun⟩
    · obtain ⟨c, orderKey, rfl⟩ := begins.creates x creation
      exact ⟨nofun, nofun⟩

/-- Where a setup `s` of the model `e` stands once an operation has been executed, with its cascades
waiting: in a state that follows it, or gone. -/
inductive Stands (p q : Partition) (operation : Operation) (e s : Concept) (d : Draft) : Prop
  | stored {s' : Concept} (there : d.find? q s.id = some s') (advances : Advances s s')
      (marked : s'.isSoftDeleted = true → s.isSoftDeleted = true ∨
        p = q ∧ operation = .delete s.id .iterationSetup ∧ isFrozen s = true) :
      Stands p q operation e s d
  | gone (deletes : operation.kind = .delete) (gone : d.find? q s.id = none)
      (reason : isFrozen s = false ∧ e.ref? Property.activeIterationSetup ≠ some s.id ∨
        d.find? q e.id = none) : Stands p q operation e s d

/-- What may wait behind an operation. -/
def Behind (operation : Operation) (x : Operation) : Prop :=
  x.SparesSetups ∧ (x.kind = .delete ↔ operation.kind = .delete)

variable {q r : Partition} {e s : Concept} {next : Operation}

theorem Stands.first (standard : env.registry = Registry.standard) (forest : Forest (d.find? p))
    (discrete : Discrete s) (model : d.find? q e.id = some e) (member : Member (d.find? q) e.id s)
    (effect : Effect env p d operation cascades d') : Stands p q operation e s d' := by
  by_cases here : p = q
  · subst here
    rcases effect.advances standard forest discrete member.stored member.kind with
      ⟨s', there, advances, marked⟩ | ⟨gone, deletes, ⟨-, warm, free⟩ | ⟨y, named, above⟩⟩
    · exact .stored there advances fun now => (marked now).imp id fun own => ⟨rfl, own⟩
    · refine .gone deletes gone (.inl ⟨warm, fun chosen => ?_⟩)
      rw [member.container, Option.bind_some, model] at free
      simp [isCurrent, chosen] at free
    · cases member.container.symm.trans named
      exact .gone deletes gone (.inr above)
  · have there := member.stored
    rw [← effect.elsewhere (Ne.symm here)] at there
    exact .stored there (.refl s) .inl

theorem Stands.step (standard : env.registry = Registry.standard) (forest : Forest (d.find? r))
    (discrete : Discrete s) (kind : s.conceptType = .iterationSetup) (container : s.container = some e.id)
    (stands : Stands p q operation e s d) (behind : Behind operation next)
    (effect : Effect env r d next cascades d') : Stands p q operation e s d' := by
  by_cases here : r = q
  · subst here
    cases stands with
    | @stored s' there advances marked =>
      have kind' : s'.conceptType = .iterationSetup :=
        (congrArg Outline.conceptType advances.outline).trans kind
      have other : next ≠ .delete s.id .iterationSetup := by
        rintro rfl
        exact behind.1 rfl
      rcases effect.advances standard forest (advances.discrete discrete) there kind' with
        ⟨s'', there', advances', marked'⟩ | ⟨gone, deletes, ⟨own, -⟩ | ⟨y, named, above⟩⟩
      · refine .stored there' (advances.trans advances') fun now => ?_
        exact marked ((marked' now).resolve_right fun own => other own.1)
      · exact absurd own other
      · have held : s'.container = s.container := congrArg Outline.container advances.outline
        cases (held.trans container).symm.trans named
        exact .gone (behind.2.mp deletes) gone (.inr above)
    | gone deletes gone reason =>
      cases next with
      | create | update => cases behind.2.mpr deletes
      | delete y t =>
        exact .gone deletes (effect.absent standard forest gone)
          (reason.imp id (effect.absent standard forest))
  · have same := effect.elsewhere (Ne.symm here)
    cases stands with
    | stored there advances marked => exact .stored (same ▸ there) advances marked
    | gone deletes gone reason => exact .gone deletes (same ▸ gone) (same ▸ reason)

theorem Effect.behind (standard : env.registry = Registry.standard) (forest : Forest (d.find? r))
    (effect : Effect env r d next cascades d') (same : next.kind = .delete ↔ operation.kind = .delete) :
    ∀ x ∈ cascades.map (place r), Behind operation x.2 := by
  intro x member
  obtain ⟨cascade, inside, rfl⟩ := List.mem_map.mp member
  exact ⟨effect.spares standard cascade inside,
    ((effect.caused standard forest).kind_iff cascade inside).trans same⟩

/-- An operation with all that it causes leaves a setup in a state that follows it, or takes it away. -/
theorem apply_stands {t t' : State Memory.View} {u : Unit} (standard : env.registry = Registry.standard)
    (forests : t.draft.Forested) (discrete : Discrete s) (model : t.draft.find? q e.id = some e)
    (member : Member (t.draft.find? q) e.id s) (run : apply env p operation t = (.ok u, t')) :
    t'.draft.Forested ∧ Stands p q operation e s t'.draft := by
  have reached := drain_keeps (I := fun d queue => d.Forested ∧
      ((d = t.draft ∧ queue = [(p, operation)]) ∨
        Stands p q operation e s d ∧ ∀ x ∈ queue, Behind operation x.2))
    ?_ ⟨forests, .inl ⟨rfl, rfl⟩⟩ run
  · obtain ⟨forests', ⟨-, waits⟩ | ⟨stands, -⟩⟩ := reached
    · cases waits
    · exact ⟨forests', stands⟩
  · rintro d d' r next waiting cascades ⟨forests, ⟨rfl, first⟩ | ⟨stands, behind⟩⟩ effect
    · cases first
      refine ⟨effect.forested standard forests,
        .inr ⟨.first standard (forests _) discrete model member effect, ?_⟩⟩
      exact effect.behind standard (forests _) Iff.rfl
    · have here := behind _ List.mem_cons_self
      refine ⟨effect.forested standard forests,
        .inr ⟨stands.step standard (forests _) discrete member.kind member.container here effect, ?_⟩⟩
      intro x inside
      rcases List.mem_append.mp inside with waits | caused
      · exact behind x (List.mem_cons_of_mem _ waits)
      · exact effect.behind standard (forests _) here.2 x caused

end Batch

namespace Memory

open Batch IterationSetup

/-- How an operation in the partition `p` leaves the setup `s` of a model `e` in the partition `q`,
where `f` is stored afterwards. -/
structure OneWay (p q : Partition) (operation : Operation) (f : ConceptId → Option Concept)
    (e s : Concept) : Prop where
  frozen : isFrozen s = true →
    f e.id = none ∨ ∃ s', Member f e.id s' ∧ Advances s s' ∧ isFrozen s' = true
  selected : e.ref? Property.activeIterationSetup = some s.id →
    f e.id = none ∨ ∃ s', Member f e.id s' ∧ s'.id = s.id
  marked : s.isSoftDeleted = false → ∀ s', f s.id = some s' → s'.isSoftDeleted = true →
    p = q ∧ operation = .delete s.id .iterationSetup ∧ isFrozen s = true

theorem OneWay.of_stands {p q : Partition} {operation : Operation} {e s : Concept} {d : Draft}
    {f : ConceptId → Option Concept} (member : Member f e.id s) (stands : Stands p q operation e s d) :
    OneWay p q operation (d.find? q) e s := by
  cases stands with
  | @stored s' there advances marked =>
    have kept : Member (d.find? q) e.id s' :=
      ⟨advances.id ▸ there, (congrArg Outline.conceptType advances.outline).trans member.kind,
        (congrArg Outline.container advances.outline).trans member.container⟩
    refine ⟨fun cold => .inr ⟨s', kept, advances, advances.frozen cold⟩,
      fun _ => .inr ⟨s', kept, advances.id⟩, fun unmarked s'' there' now => ?_⟩
    cases there.symm.trans there'
    rcases marked now with before | own
    · cases unmarked.symm.trans before
    · exact own
  | gone deletes gone reason =>
    refine ⟨fun cold => .inl ?_, fun chosen => .inl ?_, fun _ s' there => ?_⟩
    · exact reason.resolve_left fun warm => nomatch warm.1.symm.trans cold
    · exact reason.resolve_left fun free => free.2 chosen
    · cases gone.symm.trans there

theorem discrete_after (visits : List Visit)
    (standard : ∀ v ∈ visits, v.policy.registry = Registry.standard) :
    DiscreteSetups (Database.after visits).contents.find? :=
  after_keeps_queue (I := fun f _ => DiscreteSetups f) standard (fun _ _ _ none => nomatch none)
    (fun _ _ _ _ exact => exact)
    (fun _ _ _ _ _ _ _ registry forests discrete effect => effect.discrete registry (forests _) discrete)

/-- After every history under the standard registry and any operations of a further batch, the next
operation, if it succeeds with all that it causes, keeps the lifecycle of every setup one-way: a frozen
setup stays frozen, contained in the same model, with what it was given when it was created, and marked
if it was; the selected one stays; only deletion of a frozen one marks it. Or the model is gone. -/
theorem setups_one_way (visits : List Visit)
    (standard : ∀ v ∈ visits, v.policy.registry = Registry.standard) {env : Setting}
    (registry : env.registry = Registry.standard) {p : Partition} {index : Nat}
    {earlier : List Operation} {operation : Operation} {s₀ s t : Batch.State View}
    (start : s₀.view.contents = (Database.after visits).contents)
    (front : applyAll env p index earlier s₀ = (.ok (), s))
    (run : apply env p operation s = (.ok (), t)) (q : Partition) {e setup : Concept}
    (model : s.draft.find? q e.id = some e) (member : Member (s.draft.find? q) e.id setup) :
    OneWay p q operation (t.draft.find? q) e setup := by
  have opened : s₀.draft.Forested ∧ DiscreteSetups s₀.draft.find? := by
    have contents : s₀.draft.contents = (Database.after visits).contents := start
    unfold Draft.Forested Draft.find?
    rw [contents]
    exact ⟨forested_after visits standard, discrete_after visits standard⟩
  obtain ⟨forests, discrete⟩ :=
    applyAll_keeps (I := fun d _ => d.Forested ∧ DiscreteSetups d.find?)
      (fun _ _ _ _ _ _ before effect =>
        ⟨effect.forested registry before.1, effect.discrete registry (before.1 _) before.2⟩)
      (fun _ _ _ before => before) opened front
  obtain ⟨-, stands⟩ :=
    apply_stands registry forests (discrete q setup.id setup member.stored) model member run
  exact .of_stands member stands

theorem eq_of_toOption {ε α σ : Type} {x : Except ε α × σ} {a : α} (succeeds : x.1.toOption = some a) :
    x = (.ok a, x.2) :=
  Prod.ext (ok_of_toOption succeeds) rfl

/-- A batch that is about to begin. -/
def Database.underway (db : Database) : Batch.State View :=
  { view := ⟨db.contents, default, true, false⟩, ids := ⟨.ofNat, 20⟩ }

/-- Deleting the first of two setups, which is frozen, marks it. The second one, which is selected,
stays. -/
theorem setups_one_way_iterating : ∃ (e a b a' : Concept) (t : Batch.State View),
    (∀ v ∈ [founding, iterating], v.policy.registry = Registry.standard) ∧
    apply (({} : Policy).settingFor foundingRequest.actor) .siteDirectory
      (.delete (.ofNat 4) .iterationSetup) (Database.after [founding, iterating]).underway =
        (.ok (), t) ∧
    Member ((Database.after [founding, iterating]).contents.find? .siteDirectory) e.id a ∧
    Member ((Database.after [founding, iterating]).contents.find? .siteDirectory) e.id b ∧
    isFrozen a = true ∧ e.ref? Property.activeIterationSetup = some b.id ∧
    Member (t.draft.find? .siteDirectory) e.id a' ∧ Advances a a' ∧ a'.isSoftDeleted = true ∧
    (t.draft.find? .siteDirectory b.id).isSome = true := by
  have standard : ∀ v ∈ [founding, iterating], v.policy.registry = Registry.standard :=
    founding_standard rfl
  obtain ⟨e, model, here, selects⟩ : ∃ e, (Database.after [founding, iterating]).contents.find?
      .siteDirectory (.ofNat 3) = some e ∧ e.id = .ofNat 3 ∧
      e.ref? Property.activeIterationSetup = some (.ofNat 5) := stored_of_any (by decide +kernel)
  have setups : ∀ x frozen, ((Database.after [founding, iterating]).contents.find? .siteDirectory
      x).any (fun c => c.id = x ∧ c.conceptType = .iterationSetup ∧ c.container = some (.ofNat 3) ∧
        isFrozen c = frozen) = true → ∃ c,
      Member ((Database.after [founding, iterating]).contents.find? .siteDirectory) e.id c ∧
        c.id = x ∧ isFrozen c = frozen := by
    intro x frozen found
    obtain ⟨c, there, rfl, kind, container, phase⟩ := stored_of_any found
    exact ⟨c, ⟨there, kind, container.trans (congrArg some here.symm)⟩, rfl, phase⟩
  obtain ⟨a, first, four, cold⟩ := setups (.ofNat 4) true (by decide +kernel)
  obtain ⟨b, second, five, -⟩ := setups (.ofNat 5) false (by decide +kernel)
  have succeeds : (apply (({} : Policy).settingFor foundingRequest.actor) .siteDirectory
      (.delete (.ofNat 4) .iterationSetup) (Database.after [founding, iterating]).underway).1.toOption =
        some () := by decide +kernel
  have marks : ((apply (({} : Policy).settingFor foundingRequest.actor) .siteDirectory
      (.delete (.ofNat 4) .iterationSetup)
        (Database.after [founding, iterating]).underway).2.draft.find? .siteDirectory
          (.ofNat 4)).any (·.isSoftDeleted) = true := by decide +kernel
  have stays : (((apply (({} : Policy).settingFor foundingRequest.actor) .siteDirectory
      (.delete (.ofNat 4) .iterationSetup)
        (Database.after [founding, iterating]).underway).2.draft.find? .siteDirectory
          (.ofNat 3))).isSome = true := by decide +kernel
  have run := eq_of_toOption succeeds
  -- from here on the contents need not be computed
  generalize reached : Database.after [founding, iterating] = db at *
  generalize (apply (({} : Policy).settingFor foundingRequest.actor) .siteDirectory
    (.delete (.ofNat 4) .iterationSetup) db.underway).2 = t at *
  have kept : ∀ setup, Member (db.contents.find? .siteDirectory) e.id setup → OneWay .siteDirectory
      .siteDirectory (.delete (.ofNat 4) .iterationSetup) (t.draft.find? .siteDirectory) e setup := by
    intro setup member
    have start : db.underway.view.contents = (Database.after [founding, iterating]).contents :=
      congrArg Database.contents reached.symm
    have front : applyAll (({} : Policy).settingFor foundingRequest.actor) .siteDirectory 0 []
      db.underway = (.ok (), db.underway) := rfl
    rw [← here] at model
    exact setups_one_way [founding, iterating] standard rfl start front run .siteDirectory model member
  rw [← here] at stays
  have there : t.draft.find? .siteDirectory e.id ≠ none := Option.isSome_iff_ne_none.mp stays
  have chosen : e.ref? Property.activeIterationSetup = some b.id := selects.trans (congrArg some five.symm)
  obtain ⟨a', after, advances, -⟩ := ((kept a first).frozen cold).resolve_left there
  obtain ⟨b', after', same⟩ := ((kept b second).selected chosen).resolve_left there
  refine ⟨e, a, b, a', t, standard, run, first, second, cold, chosen, after, advances, ?_, ?_⟩
  · rw [← four, ← advances.id, after.stored] at marks
    exact marks
  · rw [← same, after'.stored]
    rfl

end Memory

end ConceptLedger
