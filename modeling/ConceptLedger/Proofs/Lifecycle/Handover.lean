import ConceptLedger.Proofs.Lifecycle.Beginning
import ConceptLedger.Proofs.Lifecycle.Creations

/-!
The handover to a new iteration setup. First its container selects it, then the setups that are not
frozen are frozen, one after the other. These updates change nothing else. A list may name a setup twice,
which is then asked to freeze twice; that makes no difference but for its revision.
-/

namespace ConceptLedger

open Lifecycle Forest

namespace IterationSetup

/-- A setup that has been frozen at an instant, with a new revision and otherwise as it was. -/
def FrozenAt (time : Instant) (a a' : Concept) : Prop :=
  ∃ r, a' = { a.setProperty Property.frozenOn (.timestamp time) with revisionNumber := r }

/-- A concept that selects a setup, and is otherwise as it was up to its revision. -/
structure Chooses (s : ConceptId) (e e' : Concept) : Prop where
  id : e'.id = e.id
  outline : e'.outline = e.outline
  override : e'.accessOverride = e.accessOverride
  chosen : e'.ref? Property.activeIterationSetup = some s
  rest : ∀ name, name ≠ Property.activeIterationSetup → e'.property? name = e.property? name

/-- What the updates make of what is stored that the creation of a setup causes. -/
structure Handover (time : Instant) (f g : ConceptId → Option Concept) (e : Concept) (s : ConceptId)
    (prior : List Concept) : Prop where
  selected : ∃ e', g e.id = some e' ∧ Chooses s e e'
  frozen : ∀ a ∈ prior, isFrozen a = false → ∃ a', g a.id = some a' ∧ FrozenAt time a a'
  rest : ∀ x, x ≠ e.id → (∀ a ∈ prior, isFrozen a = false → a.id ≠ x) → g x = f x

end IterationSetup

namespace Batch

open IterationSetup

variable {env : Setting} {p : Partition} {d d' d'' : Draft}

/-- An update that sets a property stores the state that was submitted, or is that of the stored one. -/
theorem Reach.set {a former : Concept} {name : String} {value : PropertyValue}
    (stored : d.find? p a.id = some former)
    (lists : ∀ q ∈ a.conceptType.containment,
      q.name ≠ name ∧ a.property? q.name = former.property? q.name)
    (reach : Reach p d (.update (a.setProperty name value)) d') :
    d'.find? p = Forest.place (d.find? p)
        { a.setProperty name value with revisionNumber := d.revision p } ∨
      (d'.find? p = d.find? p ∧ (a.setProperty name value).sameStateAs former = true) := by
  have lists : ∀ q ∈ (a.setProperty name value).conceptType.containment,
      (a.setProperty name value).property? q.name = former.property? q.name := by
    intro q declared
    rw [Concept.property?_setProperty_ne _ _ (lists q declared).1]
    exact (lists q declared).2
  cases reach with
  | updated stored' children changed store =>
    cases stored.symm.trans stored'
    obtain rfl := Concept.withStoredChildren_eq lists children
    exact .inl store
  | unchanged stored' children same =>
    cases stored.symm.trans stored'
    obtain rfl := Concept.withStoredChildren_eq lists children
    exact .inr ⟨rfl, same⟩

/-- The update by which the container of a new setup selects it. -/
theorem Effect.selecting_stored {e s : Concept} {cascades : List Cascade}
    (standard : env.registry = Registry.standard) (forest : Forest (d.find? p))
    (owner : e.conceptType = .engineeringModelSetup) (stored : d.find? p e.id = some e)
    (effect : Effect env p d (selecting e s).operation cascades d') :
    ∃ e', d'.find? p = Forest.place (d.find? p) e' ∧ Chooses s.id e e' := by
  have apart : ∀ q ∈ e.conceptType.containment, q.name ≠ Property.activeIterationSetup := by
    rw [owner]
    decide
  rcases (effect.reach standard forest).set stored fun q declared => ⟨apart q declared, rfl⟩ with
    store | ⟨store, same⟩
  · refine ⟨_, store, rfl, rfl, rfl, ?_, fun name other => ?_⟩
    · show (e.setProperty Property.activeIterationSetup (.ref s.id)).ref? _ = some s.id
      rw [Concept.ref?, Concept.property?_setProperty_self]
      rfl
    · exact Concept.property?_setProperty_ne e _ other
  · refine ⟨e, ?_, rfl, rfl, rfl, ?_, fun _ _ => rfl⟩
    · rw [store]
      exact (place_self stored).symm
    · have agree := (int?_of_agrees (optionAgrees_of_sameStateAs same
        Property.activeIterationSetup)).2.1
      rw [Concept.property?_setProperty_self] at agree
      exact agree.symm

/-- The update that freezes a setup, whether or not it has been executed before. -/
theorem Effect.freezing_stored {a former : Concept} {time : Instant} {cascades : List Cascade}
    (standard : env.registry = Registry.standard) (forest : Forest (d.find? p))
    (kind : a.conceptType = .iterationSetup) (warm : isFrozen a = false)
    (stored : d.find? p a.id = some former) (known : former = a ∨ FrozenAt time a former)
    (effect : Effect env p d (.update (a.setProperty Property.frozenOn (.timestamp time))) cascades d') :
    ∃ a', d'.find? p = Forest.place (d.find? p) a' ∧ FrozenAt time a a' := by
  have lists : ∀ q ∈ a.conceptType.containment,
      q.name ≠ Property.frozenOn ∧ a.property? q.name = former.property? q.name := by
    rw [kind]
    exact fun q none => absurd none List.not_mem_nil
  rcases (effect.reach standard forest).set stored lists with store | ⟨store, same⟩
  · exact ⟨_, store, _, rfl⟩
  · rcases known with rfl | frozen
    · have cold : isFrozen (former.setProperty Property.frozenOn (.timestamp time)) = true := by
        unfold isFrozen
        rw [Concept.property?_setProperty_self]
        rfl
      rw [isFrozen_of_sameStateAs same, warm] at cold
      cases cold
    · refine ⟨former, ?_, frozen⟩
      obtain ⟨r, rfl⟩ := frozen
      rw [store]
      exact (place_self (f := d.find? p) stored).symm

/-- The updates that freeze setups, each of which is stored as it is or has been frozen already. -/
theorem Steps.frozen {l : List Concept} {time : Instant} (standard : env.registry = Registry.standard)
    (setups : ∀ a ∈ l, a.conceptType = .iterationSetup ∧ isFrozen a = false)
    (once : ∀ a ∈ l, ∀ b ∈ l, a.id = b.id → a = b)
    (stored : ∀ a ∈ l, ∃ former, d.find? p a.id = some former ∧ (former = a ∨ FrozenAt time a former))
    (steps : Steps env d
      (l.map fun a => (p, .update (a.setProperty Property.frozenOn (.timestamp time)))) d') :
    (∀ a ∈ l, ∃ a', d'.find? p a.id = some a' ∧ FrozenAt time a a') ∧
      (∀ x, (∀ a ∈ l, a.id ≠ x) → d'.find? p x = d.find? p x) ∧ ∀ q, q ≠ p → d'.find? q = d.find? q := by
  induction l generalizing d with
  | nil =>
    cases steps
    exact ⟨fun a none => absurd none List.not_mem_nil, fun _ _ => rfl, fun _ _ => rfl⟩
  | cons a rest ih =>
    cases steps with
    | @next _ d₁ _ _ _ _ forests effect later =>
      obtain ⟨kind, warm⟩ := setups a List.mem_cons_self
      obtain ⟨former, here, known⟩ := stored a List.mem_cons_self
      obtain ⟨a', store, frozen⟩ := effect.freezing_stored standard (forests p) kind warm here known
      have id : a'.id = a.id := by
        obtain ⟨r, rfl⟩ := frozen
        rfl
      have after : d₁.find? p a.id = some a' := by
        rw [store]
        exact place_eq_some_iff.mpr (.inl ⟨id.symm, rfl⟩)
      have others : ∀ x, x ≠ a.id → d₁.find? p x = d.find? p x := by
        intro x other
        rw [store, Forest.place, if_neg (id ▸ other)]
      obtain ⟨cold, kept, elsewhere⟩ := ih (fun b member => setups b (List.mem_cons_of_mem _ member))
        (fun b member b' member' => once b (List.mem_cons_of_mem _ member) b'
          (List.mem_cons_of_mem _ member'))
        (fun b member => by
          by_cases same : b.id = a.id
          · obtain rfl := once b (List.mem_cons_of_mem _ member) a List.mem_cons_self same
            exact ⟨a', after, .inr frozen⟩
          · rw [others b.id same]
            exact stored b (List.mem_cons_of_mem _ member)) later
      refine ⟨fun b member => ?_, fun x apart => ?_, fun q other => ?_⟩
      · rcases List.mem_cons.mp member with rfl | inside
        · by_cases again : ∃ b' ∈ rest, b'.id = b.id
          · obtain ⟨b', inside, same⟩ := again
            obtain rfl := once b' (List.mem_cons_of_mem _ inside) b List.mem_cons_self same
            exact cold b' inside
          · rw [kept b.id fun b' inside same => again ⟨b', inside, same⟩]
            exact ⟨a', after, frozen⟩
        · exact cold b inside
      · rw [kept x fun b inside => apart b (List.mem_cons_of_mem _ inside)]
        exact others x (apart a List.mem_cons_self).symm
      · rw [elsewhere q other, effect.elsewhere other]

/-- After the updates that its creation causes a new setup is selected and its siblings are frozen. -/
theorem Begun.handover {e s e' : Concept} {prior : List Concept} {model id : ConceptId}
    {latest previous : Option Concept} (standard : env.registry = Registry.standard)
    (forest : Forest (d.find? p)) (begun : Begun p d d' e s e' latest prior model id previous)
    (cold : ∀ a, Member (d.find? p) e.id a → a.isSoftDeleted = true → isFrozen a = true)
    (steps : Steps env d' ((selecting e' s :: freezing d'.view.time prior).map (place p)) d'') :
    Handover d'.view.time (d'.find? p) (d''.find? p) e' s.id prior ∧
      ∀ q, q ≠ p → d''.find? q = d'.find? q := by
  obtain ⟨there, -⟩ := begun.stored
  have member := fun a (inside : a ∈ prior) => (begun.member_after forest inside).1
  have apart := fun a (inside : a ∈ prior) => (begun.member_after forest inside).2
  have chosen : ∀ {a}, a ∈ prior.filter (fun a => !isFrozen a && !a.isSoftDeleted) ↔
      a ∈ prior ∧ isFrozen a = false := by
    intro a
    rw [List.mem_filter]
    refine and_congr_right fun inside => ?_
    cases warm : isFrozen a with
    | true => simp
    | false =>
      cases marked : a.isSoftDeleted with
      | false => simp
      | true => cases warm.symm.trans (cold a ((begun.members a).mp inside) marked)
  rw [List.map_cons, freezing, List.map_map] at steps
  cases steps with
  | @next _ d₁ _ _ _ _ forests effect later =>
    obtain ⟨e'', store, chooses⟩ := effect.selecting_stored standard (forests p) begun.owner_after there
    have others : ∀ x, x ≠ e'.id → d₁.find? p x = d'.find? p x := by
      intro x other
      rw [store, Forest.place, if_neg (chooses.id ▸ other)]
    obtain ⟨frozen, kept, elsewhere⟩ := @Steps.frozen _ _ _ _ _ d'.view.time standard
      (fun a inside => ⟨(member a (chosen.mp inside).1).kind, (chosen.mp inside).2⟩)
      (fun a inside b inside' same => by
        have stored := (member a (chosen.mp inside).1).stored
        rw [same, (member b (chosen.mp inside').1).stored] at stored
        exact (Option.some.inj stored).symm)
      (fun a inside => ⟨a, by
        rw [others a.id (apart a (chosen.mp inside).1)]
        exact (member a (chosen.mp inside).1).stored, .inl rfl⟩) later
    refine ⟨⟨⟨e'', ?_, chooses⟩, fun a inside warm => frozen a (chosen.mpr ⟨inside, warm⟩),
      fun x other spared => ?_⟩, fun q other => ?_⟩
    · rw [kept e'.id fun a inside => apart a (chosen.mp inside).1, store]
      exact place_eq_some_iff.mpr (.inl ⟨chooses.id.symm, rfl⟩)
    · rw [kept x fun a inside => spared a (chosen.mp inside).1 (chosen.mp inside).2]
      exact others x other
    · rw [elsewhere q other]
      exact effect.elsewhere other

/-- From one stock to another nothing is lost, and what can be in a model stays as it is. -/
def Steady (f g : Stock) : Prop :=
  ∀ q x, g q x = f q x ∨ ((∃ c', g q x = some c' ∧ ¬ InModel c'.conceptType) ∧
    ∀ c, f q x = some c → ¬ InModel c.conceptType)

namespace Steady

variable {f g h : Stock} {q : Partition} {x : ConceptId}

theorem trans (first : Steady f g) (later : Steady g h) : Steady f h := by
  intro q x
  rcases first q x with same | ⟨⟨c, stored, outer⟩, changed⟩
  · rw [← same]
    exact later q x
  · rcases later q x with same | ⟨after, -⟩
    · exact .inr ⟨⟨c, same.trans stored, outer⟩, changed⟩
    · exact .inr ⟨after, changed⟩

theorem stored_iff (steady : Steady f g) {c : Concept} (inside : InModel c.conceptType) :
    g q x = some c ↔ f q x = some c := by
  rcases steady q x with same | ⟨⟨c', stored, outer⟩, changed⟩
  · rw [same]
  · refine ⟨fun after => ?_, fun before => absurd inside (changed c before)⟩
    cases stored.symm.trans after
    exact absurd inside outer

theorem absent (steady : Steady f g) (none : g q x = none) : f q x = .none := by
  rcases steady q x with same | ⟨⟨c', stored, -⟩, -⟩
  · exact same.symm.trans none
  · cases none.symm.trans stored

end Steady

theorem not_inModel_of_setup {t : ConceptType} (setup : t = .engineeringModelSetup ∨ t = .iterationSetup) :
    ¬ InModel t :=
  fun inside => setup.elim inside.2.1 inside.2.2

theorem Begun.steady {e s e' : Concept} {prior : List Concept} {model id : ConceptId}
    {latest previous : Option Concept} (begun : Begun p d d' e s e' latest prior model id previous) :
    Steady d.find? d'.find? := by
  intro q x
  by_cases here : q = p
  · subst here
    obtain ⟨there, stored, -⟩ := begun.stored
    by_cases top : x = e'.id
    · subst top
      refine .inr ⟨⟨e', there, not_inModel_of_setup (.inl begun.owner_after)⟩, fun c before => ?_⟩
      rw [begun.listing.1, begun.there] at before
      cases before
      exact not_inModel_of_setup (.inl begun.owner)
    · by_cases new : x = s.id
      · subst new
        refine .inr ⟨⟨s, stored, not_inModel_of_setup (.inr begun.kind)⟩, fun c before => ?_⟩
        cases begun.fresh.symm.trans before
      · left
        rw [begun.store, Forest.place, if_neg top, Forest.place, if_neg new]
  · exact .inl (congrFun (begun.elsewhere q here) x)

theorem steady_of_handover {e s e' : Concept} {prior : List Concept} {model id : ConceptId}
    {latest previous : Option Concept} {time : Instant} (forest : Forest (d.find? p))
    (begun : Begun p d d' e s e' latest prior model id previous)
    (handover : Handover time (d'.find? p) (d''.find? p) e' s.id prior)
    (elsewhere : ∀ q, q ≠ p → d''.find? q = d'.find? q) : Steady d'.find? d''.find? := by
  intro q x
  by_cases here : q = p
  · subst here
    obtain ⟨there, -⟩ := begun.stored
    by_cases top : x = e'.id
    · subst top
      obtain ⟨e'', stored, chooses⟩ := handover.selected
      refine .inr ⟨⟨e'', stored, not_inModel_of_setup (.inl ?_)⟩, fun c before => ?_⟩
      · exact (congrArg Outline.conceptType chooses.outline).trans begun.owner_after
      · cases there.symm.trans before
        exact not_inModel_of_setup (.inl begun.owner_after)
    · by_cases cold : ∃ a ∈ prior, isFrozen a = false ∧ a.id = x
      · obtain ⟨a, inside, warm, rfl⟩ := cold
        obtain ⟨member, -⟩ := begun.member_after forest inside
        obtain ⟨a', stored, r, rfl⟩ := handover.frozen a inside warm
        refine .inr ⟨⟨_, stored, not_inModel_of_setup (.inr member.kind)⟩, fun c before => ?_⟩
        cases member.stored.symm.trans before
        exact not_inModel_of_setup (.inr member.kind)
      · exact .inl (handover.rest x top fun a inside warm same => cold ⟨a, inside, warm, same⟩)
  · exact .inl (congrFun (elsewhere q here) x)

end Batch

end ConceptLedger
