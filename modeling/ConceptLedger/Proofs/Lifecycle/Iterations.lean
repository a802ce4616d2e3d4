import ConceptLedger.Proofs.Lifecycle.Midway

/-!
The lifecycle of iterations over whole histories. Under the standard registry every model has at
most one iteration setup that is not frozen, which is the newest, and the setup that is selected is
never frozen, between batches and within them.
-/

namespace ConceptLedger

namespace Memory

open Batch IterationSetup Lifecycle

/-- The iteration setups in a stored concept are in order: at most one of them is not frozen and it
has the greatest number, those that are marked as deleted are frozen, the one that is selected is
not, the numbers are positive and distinct, and a source is an earlier one of them that is frozen. -/
structure Contents.InOrder (s : Contents) (p : Partition) (model : Concept) : Prop where
  lone : ∀ a b, Member (s.find? p) model.id a → Member (s.find? p) model.id b →
    isFrozen a = false → isFrozen b = false → a = b
  newest : ∀ a b, Member (s.find? p) model.id a → Member (s.find? p) model.id b →
    isFrozen a = false → iterationNumber b ≤ iterationNumber a
  deleted : ∀ a, Member (s.find? p) model.id a → a.isSoftDeleted = true → isFrozen a = true
  selected : ∀ a, Member (s.find? p) model.id a →
    model.ref? Property.activeIterationSetup = some a.id → isFrozen a = false
  positive : ∀ a, Member (s.find? p) model.id a → 1 ≤ iterationNumber a
  distinct : ∀ a b, Member (s.find? p) model.id a → Member (s.find? p) model.id b →
    iterationNumber a = iterationNumber b → a = b
  source : ∀ a t, Member (s.find? p) model.id a →
    a.ref? Property.sourceIterationSetup = some t →
    ∃ b, Member (s.find? p) model.id b ∧ b.id = t ∧ isFrozen b = true ∧
      iterationNumber b < iterationNumber a

theorem Contents.InOrder.of_setups {s : Contents} {p : Partition} {model : Concept}
    (setups : Setups (s.find? p) fun _ => False) (stored : s.find? p model.id = some model) :
    s.InOrder p model := by
  have same : ∀ a b, Member (s.find? p) model.id a → Member (s.find? p) model.id b →
      iterationNumber a = iterationNumber b → a = b := by
    intro a b first second numbers
    have here := first.stored
    rw [setups.distinct model.id a b first second numbers, second.stored] at here
    exact (Option.some.inj here).symm
  have newest : ∀ a b, Member (s.find? p) model.id a → Member (s.find? p) model.id b →
      isFrozen a = false → iterationNumber b ≤ iterationNumber a := fun a b first second thawed =>
    (setups.newest model.id a first thawed).resolve_left id b second
  refine ⟨fun a b first second thawed thawed' => ?_, newest, setups.deleted model.id,
    fun a member => setups.selected model model.id a stored member, setups.positive model.id, same,
    fun a t member named => ?_⟩
  · exact same a b first second (Int64.le_antisymm (newest b a second first thawed')
      (newest a b first second thawed))
  · obtain ⟨b, there, id, below⟩ := setups.source model.id a t member named
    refine ⟨b, there, id, ?_, below⟩
    -- a source that is not frozen would be the newest
    cases frozen : isFrozen b with
    | true => rfl
    | false =>
      have above := newest b a there member frozen
      exact absurd (Int64.lt_of_lt_of_le below above) Int64.lt_irrefl

/-- Between batches nothing waits to be frozen. -/
def Contents.Settled (s : Contents) : Prop :=
  s.Forested ∧ ∀ p, Setups (s.find? p) fun _ => False

theorem Contents.Settled.midway {s : Contents} {d : Draft} (settled : s.Settled)
    (contents : d.contents = s) : Midway d [] := by
  subst contents
  exact ⟨settled.1, fun p => (settled.2 p).mono fun _ none => none.elim, .inl (Nat.zero_le 1)⟩

theorem Committed.settled {policy : Policy} {request : BatchRequest} {before after : Contents}
    {outcome : BatchOutcome} (standard : policy.registry = Registry.standard)
    (settled : before.Settled) (committed : Committed policy request before after outcome) :
    after.Settled := by
  refine ⟨committed.forested standard settled.1, fun p => ?_⟩
  obtain ⟨v, ids, s, rfl, rfl, run⟩ := committed.run
  obtain ⟨_, s₁, applied, finished⟩ := Step.bind_eq_ok_iff.mp run
  have midway := (applyAll_underway applied).midway standard (settled.midway rfl)
  obtain ⟨records, contents, -, -⟩ := Batch.finish_ok finished
  rw [contents]
  exact (midway.setups p).mono fun _ waits => nomatch waits

theorem settled_after (visits : List Visit)
    (standard : ∀ v ∈ visits, v.policy.registry = Registry.standard) :
    (Database.after visits).contents.Settled :=
  after_keeps (A := fun policy => policy.registry = Registry.standard)
    ⟨fun _ => Forest.empty, fun _ => Setups.empty⟩
    (fun _ _ _ _ _ standard before committed => committed.settled standard before) visits standard

/-- After every history under the standard registry, the iteration setups in every stored concept
are in order. No draft that a later batch passes through has a setup that is selected and frozen, so
that the deletion of a setup is never refused for being both. -/
theorem iterations_after (visits : List Visit)
    (standard : ∀ v ∈ visits, v.policy.registry = Registry.standard) (p : Partition) :
    (∀ model, (Database.after visits).contents.find? p model.id = some model →
      (Database.after visits).contents.InOrder p model) ∧
    ∀ (env : Setting) (start d : Draft) (queue : List (Partition × Operation)),
      env.registry = Registry.standard → start.contents = (Database.after visits).contents →
      Underway env start d queue → ∀ former, d.find? p former.id = some former →
        former.conceptType = .iterationSetup → isFrozen former = true →
        isCurrent former.id (former.container.bind (d.find? p)) = false := by
  have settled := settled_after visits standard
  refine ⟨fun model stored => .of_setups (settled.2 p) stored, ?_⟩
  intro env start d queue standard' same underway former stored kind cold
  exact (underway.midway standard' (settled.midway same)).not_current stored kind cold

theorem member_of_any {f : ConceptId → Option Concept} {x e : ConceptId} {frozen : Bool}
    (found : (f x).any (fun c => c.id = x ∧ c.conceptType = .iterationSetup ∧
      c.container = some e ∧ isFrozen c = frozen) = true) :
    ∃ c, Member f e c ∧ isFrozen c = frozen := by
  obtain ⟨c, here, facts⟩ := (Option.any_eq_true _ _).mp found
  obtain ⟨rfl, kind, container, phase⟩ := of_decide_eq_true facts
  exact ⟨c, ⟨here, kind, container⟩, phase⟩

/-- A model with an iteration setup that is frozen and one that is not. -/
theorem iterations_after_iterating :
    (∀ v ∈ [founding, iterating], v.policy.registry = Registry.standard) ∧ ∃ model a b,
      (Database.after [founding, iterating]).contents.InOrder .siteDirectory model ∧
      Member ((Database.after [founding, iterating]).contents.find? .siteDirectory) model.id a ∧
      Member ((Database.after [founding, iterating]).contents.find? .siteDirectory) model.id b ∧
      isFrozen a = true ∧ isFrozen b = false ∧
      isCurrent a.id (a.container.bind
        ((Database.after [founding, iterating]).contents.find? .siteDirectory)) = false := by
  have standard : ∀ v ∈ [founding, iterating], v.policy.registry = Registry.standard :=
    founding_standard rfl
  obtain ⟨a, first, cold⟩ : ∃ a, Member ((Database.after [founding, iterating]).contents.find?
      .siteDirectory) (.ofNat 3) a ∧ isFrozen a = true :=
    member_of_any (x := .ofNat 4) (by decide +kernel)
  obtain ⟨b, second, thawed⟩ : ∃ b, Member ((Database.after [founding, iterating]).contents.find?
      .siteDirectory) (.ofNat 3) b ∧ isFrozen b = false :=
    member_of_any (x := .ofNat 5) (by decide +kernel)
  have order := iterations_after [founding, iterating] standard .siteDirectory
  have forest := forested_after [founding, iterating] standard .siteDirectory
  generalize (Database.after [founding, iterating]).contents = s at *
  obtain ⟨model, there, -⟩ := first.model forest
  rw [← forest.keyed _ _ there] at first second there
  have free := order.2 (({} : Policy).settingFor foundingRequest.actor)
    ⟨⟨s, default, true, false⟩, [], .empty, .empty⟩ _ [] rfl rfl .start a first.stored first.kind cold
  exact ⟨standard, model, a, b, order.1 model there, first, second, cold, thawed, free⟩

end Memory

end ConceptLedger
