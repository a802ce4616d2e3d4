import ConceptLedger.Proofs.Lifecycle.Selection
import ConceptLedger.Proofs.Store.Neighbourhood

/-!
Associations that dangle: they refer to an identifier under which no concept of the declared type is
stored. An association is checked when it is written, and what it refers to keeps its type as long as
it is stored. So only a removal can leave an association dangling, and only one that refers to a
concept which is removed.
-/

namespace ConceptLedger

/-- Under an identifier a concept of a type is stored. -/
def Holds (f : ConceptId → Option Concept) (t : ConceptId) (kind : ConceptType) : Prop :=
  ∃ target, f t = some target ∧ target.conceptType = kind

/-- A stored concept has an association with the property, which refers to `t` among others. -/
def Refers (f : ConceptId → Option Concept) (x : ConceptId) (a : Association) (t : ConceptId) : Prop :=
  ∃ c value, f x = some c ∧ a ∈ c.conceptType.associations ∧ c.property? a.name = some value ∧
    t ∈ value.referenced

/-- An association of a stored concept refers to `t`, and no concept of the declared type is stored
there. -/
def Dangling (f : ConceptId → Option Concept) (x : ConceptId) (property : String) (t : ConceptId) :
    Prop :=
  ∃ a : Association, a.name = property ∧ Refers f x a t ∧ ¬ Holds f t a.target

theorem PropertyValue.referenced_of_agrees {v w : PropertyValue} (agree : v.agrees w = true) :
    v.referenced = w.referenced := by
  cases v <;> cases w <;> simp_all [PropertyValue.agrees, PropertyValue.referenced]

namespace Batch

open Lifecycle Forest

variable {env : Setting} {p : Partition} {d d' : Draft} {x t : ConceptId}

/-- Whatever an association that was checked refers to, in whatever form, it referred to before, or it
is stored with the declared type. -/
theorem Draft.Targets.referenced {c : Concept} {former : Option Concept} {a : Association}
    {value : PropertyValue} (targets : d.Targets p c former)
    (declared : a ∈ c.conceptType.associations) (held : c.property? a.name = some value)
    (member : t ∈ value.referenced) :
    (∃ c₀ old, former = some c₀ ∧ c₀.property? a.name = some old ∧ t ∈ old.referenced) ∨
      Holds (d.find? p) t a.target := by
  have checked := forM_ok targets declared
  unfold requireTargetsOf at checked
  rw [held] at checked
  dsimp only at checked
  split at checked
  · rename_i agree
    cases there : former.bind (·.property? a.name) with
    | none =>
      rw [there] at agree
      cases agree
    | some old =>
      rw [there] at agree
      obtain ⟨c₀, stored, property⟩ := Option.bind_eq_some_iff.mp there
      have same := PropertyValue.referenced_of_agrees agree
      exact .inl ⟨c₀, old, stored, property, same ▸ member⟩
  · have found := forM_ok checked member
    unfold requireTarget at found
    simp only [Except.bind] at found
    split at found
    · cases found
    · rename_i target there
      split at found
      · rename_i fits
        exact .inr ⟨target, there, fits⟩
      · cases found

/-- The associations of a new concept are all checked, as the hooks left them. -/
theorem CreateEffect.vouched {c u : Concept} {orderKey : Option Int64} {cascades : List Cascade}
    (standard : env.registry = Registry.standard) (forest : Forest (d.find? p))
    (effect : CreateEffect env p d c orderKey cascades d') (stored : d'.find? p c.id = some u) :
    ∃ c' r, d.Targets p c' none ∧ u = { c' with revisionNumber := r } := by
  cases effect with
  | skipped request => cases request.fresh.symm.trans stored
  | @stored _ _ c' _ _ _ _ request targets _ absent entered _ =>
    have id := (request.child standard).1
    refine ⟨c', d.revision p, targets, ?_⟩
    cases entered with
    | root =>
      rw [find?_put_same, find?_allot_eq, ← id] at stored
      rcases place_eq_some_iff.mp stored with ⟨-, rfl⟩ | ⟨other, -⟩
      · rfl
      · exact absurd rfl other
    | @under parent extended attached _ =>
      obtain ⟨-, ⟨y, named, there⟩, -⟩ := request.housed
      obtain ⟨q, -, -, value, -, rfl⟩ := Concept.attach_ok attached
      rw [find?_put_same, find?_put_same, find?_allot_eq, ← id] at stored
      rcases place_place_cases stored with ⟨same, -⟩ | ⟨-, rfl⟩ | ⟨-, -, before⟩
      · -- the container was stored before, and the new concept was not
        obtain rfl := forest.keyed _ _ there
        have same : c'.id = parent.id := same
        cases (same ▸ absent).symm.trans there
      · rfl
      · cases absent.symm.trans before

/-- What an association refers to after an operation, it referred to before, or it was stored before
with the declared type. -/
theorem Effect.refers {operation : Operation} {cascades : List Cascade} {a : Association}
    (standard : env.registry = Registry.standard) (forest : Forest (d.find? p))
    (effect : Effect env p d operation cascades d') (refers : Refers (d'.find? p) x a t) :
    Refers (d.find? p) x a t ∨ Holds (d.find? p) t a.target := by
  obtain ⟨c, value, stored, declared, held, member⟩ := refers
  rcases (effect.origin standard forest stored).relisted_or_handled with ⟨former, same⟩ | own
  · have type : c.conceptType = former.conceptType := congrArg Outline.conceptType same.outline
    rw [type] at declared
    refine .inl ⟨former, value, same.before, declared, ?_, member⟩
    rw [← same.rest a.name fun q inside =>
      (ConceptType.association_ne_containment declared inside).symm]
    exact held
  · cases own with
    | created here request =>
      subst here
      cases effect with
      | create effect =>
        obtain ⟨c', r, targets, same⟩ := effect.vouched standard forest stored
        rw [same] at declared held
        rcases targets.referenced declared held member with ⟨_, _, ⟨⟩, -⟩ | stored
        exact .inr stored
    | @updated u former _ c' _ _ _ here request targets =>
      have type : c'.conceptType = former.conceptType :=
        congrArg Outline.conceptType (request.outline standard)
      have declared : a ∈ c'.conceptType.associations := declared
      rcases targets.referenced declared held member with ⟨_, old, ⟨⟩, before, inside⟩ | stored
      · exact .inl ⟨former, old, here ▸ request.stored, type ▸ declared, before, inside⟩
      · exact .inr stored
    | @marked _ former c' _ _ _ request convert =>
      have type : c'.conceptType = former.conceptType :=
        congrArg Outline.conceptType (request.outline standard)
      have declared : a ∈ c'.conceptType.associations := declared
      rcases request.decided standard with ⟨proceed, -⟩ | ⟨skip, -⟩ | ⟨-, kind, -, -, rfl⟩
      · cases proceed.symm.trans convert
      · cases skip.symm.trans convert
      · refine .inl ⟨former, value, request.stored, type ▸ declared, ?_, member⟩
        have apart : a.name ≠ Property.isDeleted := by
          rw [type, kind] at declared
          obtain rfl := List.mem_singleton.mp declared
          decide
        rw [← Concept.property?_setProperty_ne former (.bool true) apart]
        exact held

/-- A stored concept keeps its type, unless it is removed by a deletion. -/
theorem Effect.holds {operation : Operation} {cascades : List Cascade} {kind : ConceptType}
    (standard : env.registry = Registry.standard) (forest : Forest (d.find? p))
    (effect : Effect env p d operation cascades d') (holds : Holds (d.find? p) t kind) :
    Holds (d'.find? p) t kind ∨
      (∃ id type, operation = .delete id type) ∧ d'.find? p t = none := by
  obtain ⟨target, stored, rfl⟩ := holds
  have keep : (∃ c', d'.find? p t = some c' ∧ c'.outline = target.outline) →
      Holds (d'.find? p) t target.conceptType :=
    fun ⟨c', there, outline⟩ => ⟨c', there, congrArg Outline.conceptType outline⟩
  cases effect.fate standard forest with
  | stay rest => exact .inl (keep (rest t target stored))
  | @fall id type _ _ _ _ request proceed gone rest =>
    by_cases within : Outline.Within (outlines (d.find? p)) id t
    · exact .inr ⟨⟨id, type, rfl⟩, gone t within⟩
    · exact .inl (keep (rest t target within stored))

/-- An association that dangles after an operation dangled before, or refers to a concept that the
operation, a deletion, removed. -/
theorem Effect.dangling {operation : Operation} {cascades : List Cascade} {property : String}
    (standard : env.registry = Registry.standard) (forest : Forest (d.find? p))
    (effect : Effect env p d operation cascades d') (dangling : Dangling (d'.find? p) x property t) :
    Dangling (d.find? p) x property t ∨ (∃ id type, operation = .delete id type) ∧
      (d.find? p t).isSome ∧ d'.find? p t = none := by
  obtain ⟨a, named, refers, unheld⟩ := dangling
  by_cases holds : Holds (d.find? p) t a.target
  · rcases effect.holds standard forest holds with held | ⟨deletion, gone⟩
    · exact absurd held unheld
    · obtain ⟨target, stored, -⟩ := holds
      exact .inr ⟨deletion, stored ▸ rfl, gone⟩
  · rcases effect.refers standard forest refers with before | stored
    · exact .inl ⟨a, named, before, holds⟩
    · exact absurd stored holds

end Batch

namespace Memory

open Batch

/-- After every history under the standard registry, an operation that is executed while a batch is
applied, be it submitted or a cascade, leaves no association dangling that was not so before, except
where a deletion removes the concept that the association refers to. -/
theorem dangling_by_removal (visits : List Visit)
    (standard : ∀ v ∈ visits, v.policy.registry = Registry.standard) (env : Setting)
    (registry : env.registry = Registry.standard) (start : Draft)
    (reached : start.contents = (Database.after visits).contents) (s t : Batch.State View)
    (queue : List (Partition × Operation)) (underway : Underway env start s.draft queue)
    (p : Partition) (operation : Operation) (cascades : List Cascade)
    (run : execute env p operation s = (.ok cascades, t)) (q : Partition) (x target : ConceptId)
    (property : String) (dangling : Dangling (t.draft.find? q) x property target) :
    Dangling (s.draft.find? q) x property target ∨
      q = p ∧ (∃ id kind, operation = .delete id kind) ∧ (s.draft.find? q target).isSome ∧
        t.draft.find? q target = none := by
  have effect := execute_ok run
  have forests := (underway.midway registry ((settled_after visits standard).midway reached)).forests
  by_cases here : q = p
  · subst here
    exact (effect.dangling registry (forests q) dangling).imp_right fun removed => ⟨rfl, removed⟩
  · rw [effect.elsewhere here] at dangling
    exact .inl dangling

theorem Database.contents_underway (db : Database) : db.underway.draft.contents = db.contents := rfl

/-- The second of two models is deleted, with the setup that the first one selects: the selection
dangles. -/
theorem dangling_by_removal_lending : ∃ (cascades : List Cascade) (t : Batch.State View),
    execute (({} : Policy).settingFor foundingRequest.actor) .siteDirectory
      (.delete (.ofNat 4) .engineeringModelSetup) (Database.after [founding, lending]).underway =
        (.ok cascades, t) ∧
    Dangling (t.draft.find? .siteDirectory) (.ofNat 3) Property.activeIterationSetup (.ofNat 5) ∧
    (Dangling ((Database.after [founding, lending]).underway.draft.find? .siteDirectory) (.ofNat 3)
        Property.activeIterationSetup (.ofNat 5) ∨
      ((Database.after [founding, lending]).underway.draft.find? .siteDirectory (.ofNat 5)).isSome ∧
        t.draft.find? .siteDirectory (.ofNat 5) = none) := by
  have standard : ∀ v ∈ [founding, lending], v.policy.registry = Registry.standard :=
    founding_standard rfl
  have deletes : let outcome := (execute (({} : Policy).settingFor foundingRequest.actor)
        .siteDirectory (.delete (.ofNat 4) .engineeringModelSetup)
        (Database.after [founding, lending]).underway)
      outcome.1.isOk = true ∧ (outcome.2.draft.find? .siteDirectory (.ofNat 5)).isNone = true ∧
      (outcome.2.draft.find? .siteDirectory (.ofNat 3)).any (fun c =>
        c.conceptType = .engineeringModelSetup ∧
          c.property? Property.activeIterationSetup = some (.ref (.ofNat 5))) = true := by
    decide +kernel
  cases ran : execute (({} : Policy).settingFor foundingRequest.actor) .siteDirectory
    (.delete (.ofNat 4) .engineeringModelSetup) (Database.after [founding, lending]).underway with
  | mk answer t =>
    rw [ran] at deletes
    obtain ⟨succeeds, removed, selecting⟩ := deletes
    cases answer with
    | error _ => cases succeeds
    | ok cascades =>
      have gone := Option.isNone_iff_eq_none.mp removed
      obtain ⟨c, stored, facts⟩ := (Option.any_eq_true _ _).mp selecting
      obtain ⟨kind, selects⟩ := of_decide_eq_true facts
      have dangling : Dangling (t.draft.find? .siteDirectory) (.ofNat 3)
          Property.activeIterationSetup (.ofNat 5) := by
        refine ⟨⟨Property.activeIterationSetup, .iterationSetup⟩, rfl,
          ⟨c, _, stored, kind ▸ List.mem_cons_self, selects, List.mem_cons_self⟩, ?_⟩
        rintro ⟨target, there, -⟩
        cases gone.symm.trans there
      refine ⟨cascades, t, rfl, dangling, ?_⟩
      exact (dangling_by_removal [founding, lending] standard
        (({} : Policy).settingFor foundingRequest.actor) rfl
        (Database.after [founding, lending]).underway.draft (Database.contents_underway _) _ t [] .start
        .siteDirectory _ _ ran .siteDirectory _ _ _ dangling).imp_right fun removed => removed.2.2

end Memory

end ConceptLedger
