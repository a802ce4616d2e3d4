import ConceptLedger.Proofs.Containment.Integrity
import ConceptLedger.Proofs.Lifecycle.Hooked
import ConceptLedger.Proofs.Lifecycle.Phase
import ConceptLedger.Proofs.Lifecycle.Siblings

/-!
What each kind of operation makes of the iteration setups in its partition. Updates and deletions
leave them in order; a creation does so up to the siblings that its cascades will freeze.
-/

namespace ConceptLedger

open Lifecycle Forest IterationSetup

namespace IterationSetup

variable {f : ConceptId → Option Concept} {soon : ConceptId → Prop} {c former s : Concept}
  {e : ConceptId} {container : Option Concept}

/-- Iteration setups are contained in setups of engineering models only. -/
theorem model_of_containmentFor? {t : ConceptType} {q : Containment}
    (fits : t.containmentFor? .iterationSetup = some q) : t = .engineeringModelSetup := by
  cases t <;> first | rfl | cases fits

theorem Member.model (forest : Forest f) (member : Member f e s) :
    ∃ model, f e = some model ∧ model.conceptType = .engineeringModelSetup := by
  obtain ⟨model, q, there, fits⟩ := forest.container_stored member.stored member.container
  rw [member.kind] at fits
  exact ⟨model, there, model_of_containmentFor? fits⟩

theorem Member.kind_of_stored (forest : Forest f) (member : Member f e s) (there : f e = some c) :
    c.conceptType = .engineeringModelSetup := by
  obtain ⟨model, stored, kind⟩ := member.model forest
  cases there.symm.trans stored
  exact kind

/-- A setup has no setups in it. -/
theorem not_member_of_kind (forest : Forest f) (stored : f e = some c)
    (kind : c.conceptType = .iterationSetup) : ¬ Member f e s := by
  intro member
  have model := member.kind_of_stored forest stored
  exact nomatch kind.symm.trans model

theorem not_member_of_absent (forest : Forest f) (absent : f e = none) : ¬ Member f e s := by
  intro member
  obtain ⟨model, there, -⟩ := member.model forest
  cases absent.symm.trans there

/-- Members stay while a new concept and then their container are put in place. -/
theorem Member.entered {child parent : Concept} (forest : Forest f) (absent : f child.id = none)
    (id : parent.id = e) (member : Member f e s) : Member (place (place f child) parent) e s := by
  have found := member.stored
  refine ⟨place_eq_some_iff.mpr (.inr ⟨?_, place_eq_some_iff.mpr (.inr ⟨?_, found⟩)⟩), member.kind,
    member.container⟩ <;> intro same <;> rw [same] at found
  · rw [id] at found
    exact not_member_of_kind forest found member.kind member
  · cases absent.symm.trans found

/-- The siblings of a setup that has been entered are the setups that its container had before. -/
theorem siblings_of_entered {setting : HookSetting} {child parent : Concept}
    (lookup : setting.lookup setting.partition = fun id => .ok (place (place f child) parent id))
    (forest : Forest f) (forest' : Forest (place (place f child) parent)) (absent : f child.id = none)
    (kind : parent.conceptType = .engineeringModelSetup) {prior : List Concept}
    (run : siblings child parent setting = .ok prior) (s : Concept) :
    s ∈ prior ↔ Member f parent.id s := by
  have there : place (place f child) parent parent.id = some parent :=
    place_eq_some_iff.mpr (.inl ⟨rfl, rfl⟩)
  refine (siblings_ok lookup forest' there kind run s).trans ⟨?_, fun member => ?_⟩
  · rintro ⟨member, apart⟩
    rcases place_place_cases member.stored with ⟨-, rfl⟩ | ⟨here, -⟩ | ⟨-, -, old⟩
    · cases kind.symm.trans member.kind
    · exact absurd here apart
    · exact ⟨old, member.kind, member.container⟩
  · refine ⟨member.entered forest absent rfl, fun same => ?_⟩
    have found := member.stored
    rw [same, absent] at found
    cases found

/-- A stored setup is a member of the container that it names. -/
theorem member_of_kind (forest : Forest f) (stored : f former.id = some former)
    (kind : former.conceptType = .iterationSetup) :
    ∃ y, former.container = some y ∧ Member f y former := by
  obtain ⟨y, -, named, -, -⟩ := forest.ordered.housed former.id former.outline
    (outlines_eq_some_iff.mpr ⟨former, stored, rfl⟩) (by rw [Concept.outline, kind]; rfl)
  exact ⟨y, named, stored, kind, named⟩

theorem container_ne_of_kind (forest : Forest f) (stored : f former.id = some former)
    (kind : former.conceptType = .iterationSetup) : former.container ≠ some former.id :=
  fun named => not_member_of_kind forest stored kind ⟨stored, kind, named⟩

theorem isFrozen_setProperty_isDeleted (c : Concept) (value : PropertyValue) :
    isFrozen (c.setProperty Property.isDeleted value) = isFrozen c := by
  unfold isFrozen
  rw [Concept.property?_setProperty_ne _ _ (by decide)]

/-- What the deletion of a frozen setup makes of it. -/
theorem replaces_marked (forest : Forest f) (stored : f former.id = some former)
    (kind : former.conceptType = .iterationSetup) (cold : isFrozen former = true)
    (within : container = former.container.bind f) (free : isCurrent former.id container = false)
    {r : UInt64} : Setups.Replaces f former
      { former.setProperty Property.isDeleted (.bool true) with revisionNumber := r } where
  id := rfl
  outline := rfl
  number _ := by
    show iterationNumber (former.setProperty Property.isDeleted (.bool true)) = _
    unfold iterationNumber
    rw [Concept.property?_setProperty_ne _ _ (by decide)]
  source _ := by
    show (former.setProperty Property.isDeleted (.bool true)).ref? _ = _
    unfold Concept.ref?
    rw [Concept.property?_setProperty_ne _ _ (by decide)]
  frozen _ _ := (isFrozen_setProperty_isDeleted former _).trans cold
  deleted _ _ := (isFrozen_setProperty_isDeleted former _).trans cold
  selected _ _ y model named there chosen := by
    rw [within, named, Option.bind_some, there] at free
    simp [isCurrent, chosen] at free
  selects s member := absurd member (not_member_of_kind forest stored kind)
  apart _ := container_ne_of_kind forest stored kind

/-- What a permitted update makes of a setup. -/
theorem replaces_permitted (forest : Forest f) (setups : Setups f soon)
    (stored : f former.id = some former) (kind : former.conceptType = .iterationSetup)
    (id : c.id = former.id) (outline : c.outline = former.outline)
    (within : container = former.container.bind f) (permitted : Permitted former c container)
    {r : UInt64} : Setups.Replaces f former { c with revisionNumber := r } where
  id := id
  outline := outline
  number _ := congrArg (·.getD 0)
    (int?_of_agrees (permitted.fixed Property.iterationNumber (by decide))).1
  source _ := (int?_of_agrees (permitted.fixed Property.sourceIterationSetup (by decide))).2.1
  frozen _ := permitted.frozen
  deleted _ marked := by
    obtain ⟨y, -, member⟩ := member_of_kind forest stored kind
    exact permitted.frozen (setups.deleted y former member (permitted.deleted.symm.trans marked))
  selected _ cold y model named there chosen := by
    have free := permitted.current cold
    rw [within, named, Option.bind_some, there, id] at free
    simp [isCurrent, chosen] at free
  selects s member := absurd member (not_member_of_kind forest stored kind)
  apart _ := container_ne_of_kind forest stored kind

/-- What an update makes of a concept other than an iteration setup: if it contains setups it
selects no frozen one of them. -/
theorem replaces_other (forest : Forest f) (setups : Setups f soon)
    (stored : f former.id = some former) (kind : former.conceptType ≠ .iterationSetup)
    (id : c.id = former.id) (outline : c.outline = former.outline)
    (chosen : former.conceptType = .engineeringModelSetup →
      c.ref? Property.activeIterationSetup = former.ref? Property.activeIterationSetup ∨
        ∀ id selected, c.ref? Property.activeIterationSetup = some id → f id = some selected →
          isFrozen selected = false)
    {r : UInt64} : Setups.Replaces f former { c with revisionNumber := r } where
  id := id
  outline := outline
  number iteration := absurd iteration kind
  source iteration := absurd iteration kind
  frozen iteration := absurd iteration kind
  deleted iteration := absurd iteration kind
  selected iteration := absurd iteration kind
  selects s member active := by
    rcases chosen (member.kind_of_stored forest stored) with same | thawed
    · exact setups.selected former former.id s stored member (same.symm.trans active)
    · exact thawed s.id s active member.stored
  apart iteration := absurd iteration kind

end IterationSetup

namespace Batch

variable {env : Setting} {p : Partition} {d d' : Draft} {soon : ConceptId → Prop}

/-- What an update makes of a stored concept keeps the setups in order. -/
theorem UpdateRequest.replaces {c former c₁ c' : Concept} {container : Option Concept}
    {before : HookOutcome} {r : UInt64} (standard : env.registry = Registry.standard)
    (forest : Forest (d.find? p)) (setups : Setups (d.find? p) soon)
    (request : UpdateRequest env p d c former c₁ container c' before) :
    d.find? p former.id = some former ∧ former.id = c.id ∧ isFrozen c' = isFrozen c ∧
      Setups.Replaces (d.find? p) former { c' with revisionNumber := r } := by
  have keyed := forest.keyed _ _ request.stored
  have stored : d.find? p former.id = some former := by
    rw [keyed]
    exact request.stored
  obtain ⟨rfl, -, permitted, chosen⟩ := request.hooked.update_ok standard
  have stands := standsFor_of_stored (forest.complete _ _ stored) keyed.symm request.sameType
    request.sameContainer request.shape request.children
  have type : c'.conceptType = former.conceptType := congrArg Outline.conceptType stands.outline
  refine ⟨stored, keyed, (Same.stored request.children).isFrozen, ?_⟩
  by_cases kind : former.conceptType = .iterationSetup
  · exact replaces_permitted forest setups stored kind stands.id stands.outline request.within
      (permitted (type.trans kind))
  · exact replaces_other forest setups stored kind stands.id stands.outline
      fun model => (chosen (type.trans model)).2

/-- An update leaves the setups in order. If it freezes a setup, that one waits no longer. -/
theorem UpdateEffect.setups {c : Concept} {cascades : List Cascade}
    (standard : env.registry = Registry.standard) (forest : Forest (d.find? p))
    (setups : Setups (d.find? p) soon) (effect : UpdateEffect env p d c cascades d') :
    Setups (d'.find? p) fun id => soon id ∧ ¬ (c.id = id ∧ isFrozen c = true) := by
  cases effect with
  | skipped request skip =>
    obtain ⟨-, rfl, -, -⟩ := request.hooked.update_ok standard
    cases skip
  | @unchanged former _ _ _ _ request _ same =>
    obtain ⟨stored, id, frozen, -⟩ := request.replaces (r := 0) standard forest setups
    refine setups.settle fun e s member thawed waits => ⟨waits, ?_⟩
    rintro ⟨here, cold⟩
    have found := member.stored
    rw [← here, ← id, stored] at found
    cases found
    rw [← isFrozen_of_sameStateAs same, frozen, cold] at thawed
    cases thawed
  | @stored former _ c' _ _ _ _ request _ _ _ _ _ =>
    obtain ⟨stored, id, frozen, replaces⟩ :=
      request.replaces (r := d.revision p) standard forest setups
    rw [find?_put_same, find?_allot_eq]
    refine (setups.replaced stored replaces).settle fun e s member thawed waits => ⟨waits, ?_⟩
    rintro ⟨here, cold⟩
    rcases place_eq_some_iff.mp member.stored with ⟨-, rfl⟩ | ⟨apart, -⟩
    · have thawed : isFrozen c' = false := thawed
      rw [frozen, cold] at thawed
      cases thawed
    · rw [replaces.id, id] at apart
      exact apart here.symm

/-- A deletion leaves the setups in order, unless it takes away one that waits to be frozen. -/
theorem DeleteEffect.setups {id : ConceptId} {t : ConceptType} {cascades : List Cascade}
    (standard : env.registry = Registry.standard) (forest : Forest (d.find? p))
    (setups : Setups (d.find? p) soon) (unhurried : t = .iterationSetup → ¬ soon id)
    (effect : DeleteEffect env p d id t cascades d') : Setups (d'.find? p) soon := by
  cases effect with
  | skipped => exact setups
  | kept => exact setups
  | @marked former _ _ _ _ _ request convert _ _ _ _ =>
    have stored := request.stored
    obtain rfl := forest.keyed _ _ stored
    obtain ⟨others, iteration⟩ := request.hooked.delete_ok standard
    rw [find?_put_same, find?_allot_eq]
    by_cases kind : former.conceptType = .iterationSetup
    · obtain ⟨free, ⟨-, rfl, -⟩ | ⟨-, rfl, -⟩ | ⟨cold, -, rfl, -⟩⟩ := iteration kind
      · cases convert
      · cases convert
      · exact setups.replaced stored (replaces_marked forest stored kind cold request.within free)
    · obtain ⟨-, rfl⟩ := others kind
      cases convert
  | @removed former _ _ container _ _ _ order d₁ _ request proceed _ listed removed left _ =>
    have stored := request.stored
    obtain rfl := forest.keyed _ _ stored
    have warm : former.conceptType = .iterationSetup → isFrozen former = false ∧ ¬ soon former.id := by
      intro kind
      refine ⟨?_, unhurried (request.sameType.symm.trans kind)⟩
      obtain ⟨-, ⟨thawed, -, -⟩ | ⟨-, rfl, -⟩ | ⟨-, rfl, -⟩⟩ :=
        (request.hooked.delete_ok standard).2 kind
      · exact thawed
      · cases proceed
      · cases proceed
    have rest := setups.cut stored rfl warm
    have cut := left.cutOff forest stored request.within (removed.cut forest stored listed)
    generalize d'.find? p = f at cut
    cases cut with
    | root => exact rest
    | @under parent named there outside =>
      obtain ⟨parent', q, there', fits⟩ := forest.container_stored stored named
      cases there.symm.trans there'
      have kept := cut_eq_some_iff.mpr ⟨outside, there⟩
      have outline := Concept.outline_eq (parent.detach_conceptType former.id)
        (parent.detach_container former.id)
      refine rest.replaced_container kept (parent.detach_id former.id) outline ?_
        (Same.detach parent former.id).active
      intro kind
      rw [kind] at fits
      exact nomatch (ConceptType.containmentFor?_eq_some_iff.mp fits).1

/-- An update is in a queue that freezes a setup. -/
def Freezes (queue : List (Partition × Operation)) (p : Partition) (id : ConceptId) : Prop :=
  ∃ c, (p, Operation.update c) ∈ queue ∧ c.id = id ∧ isFrozen c = true

theorem Freezes.append {queue more : List (Partition × Operation)} {id : ConceptId} :
    Freezes (queue ++ more) p id ↔ Freezes queue p id ∨ Freezes more p id := by
  constructor
  · rintro ⟨c, member, frozen⟩
    exact (List.mem_append.mp member).imp (⟨c, ·, frozen⟩) (⟨c, ·, frozen⟩)
  · rintro (⟨c, member, frozen⟩ | ⟨c, member, frozen⟩)
    · exact ⟨c, List.mem_append_left _ member, frozen⟩
    · exact ⟨c, List.mem_append_right _ member, frozen⟩

/-- The siblings of a new setup that are not frozen or marked as deleted get an update each. -/
theorem freezes_of_freezing {time : Instant} {prior : List Concept} {s : Concept}
    {selected : Cascade} {created cascades : List Cascade}
    (caused : cascades = selected :: freezing time prior ++ created) (member : s ∈ prior)
    (thawed : isFrozen s = false) (unmarked : s.isSoftDeleted = false) :
    Freezes (cascades.map (place p)) p s.id := by
  refine ⟨s.setProperty Property.frozenOn (.timestamp time), ?_, rfl, ?_⟩
  · have chosen : s ∈ prior.filter fun s => !isFrozen s && !s.isSoftDeleted :=
      List.mem_filter.mpr ⟨member, by simp [thawed, unmarked]⟩
    have inside : ⟨none, .update (s.setProperty Property.frozenOn (.timestamp time))⟩ ∈ cascades := by
      rw [caused]
      exact List.mem_append_left _ (List.mem_cons_of_mem _ (List.mem_map_of_mem chosen))
    exact List.mem_map_of_mem inside
  · unfold isFrozen
    rw [Concept.property?_setProperty_self]
    rfl

/-- A new setup gets the number after those of its siblings, and each of them that is not frozen
yet gets an update that freezes it. -/
theorem CreateRequest.joins {c c' c'' parent parent' : Concept} {before after : HookOutcome}
    {security : SecurityContext} {r : UInt64} (standard : env.registry = Registry.standard)
    (forest : Forest (d.find? p)) (setups : Setups (d.find? p) soon)
    (kind : c.conceptType = .iterationSetup)
    (request : CreateRequest env p d c (some parent) c' before) (there : d.find? p parent.id = some parent)
    (forest' : Forest (d'.find? p)) (there' : d'.find? p parent.id = some parent')
    (kept : ∀ s, Member (d.find? p) parent.id s → Member (d'.find? p) parent.id s)
    (hooked : Hooked env p d' security .afterCreate { c' with revisionNumber := r } (some parent') c''
      after) :
    Setups.Joins (d.find? p) (Freezes (after.cascades.map (place p)) p) parent.id
      { c' with revisionNumber := r } := by
  have type : c'.conceptType = .iterationSetup :=
    (congrArg Outline.conceptType (request.child standard).2.1).trans kind
  have id : c'.id = c.id := (request.child standard).1
  have model : parent.conceptType = .engineeringModelSetup := by
    obtain ⟨q, fits⟩ := Option.isSome_iff_exists.mp request.housed.2.2
    rw [kind] at fits
    exact model_of_containmentFor? fits
  have other : ∀ s, Member (d.find? p) parent.id s → s.id ≠ c.id := by
    intro s member same
    have stored := member.stored
    rw [same, request.fresh] at stored
    cases stored
  -- before: the numbers and the source of the siblings
  obtain ⟨s, t, o, concept, run, -, answer⟩ := request.hooked.iterationSetup standard
    (c.withoutChildren_conceptType.trans kind)
  obtain ⟨rfl, rfl⟩ := answer
  obtain ⟨-, container, prior, number, named, held, listed, next, -, result⟩ :=
    IterationSetup.beforeCreate_ok run
  cases held
  have absent : d.find? p s.concept.id = none := by
    rw [concept, Concept.withoutChildren_id, request.fresh]
  have members := fun x => (siblings_of_absent rfl forest absent there model listed x).symm
  rw [result] at hooked type id ⊢
  refine assigned_joins members (setups.positive parent.id) next fun x member thawed => ?_
  -- after: the updates that freeze them
  obtain ⟨s', t', o', concept', run', caused, -⟩ :=
    hooked.iterationSetup standard (by exact type)
  obtain ⟨container', prior', _, _, _, _, begins⟩ := IterationSetup.afterCreate_ok run'
  cases begins.held
  have model' := (kept x member).kind_of_stored forest' there'
  have keyed := forest'.keyed _ _ there'
  rw [← keyed] at there'
  refine freezes_of_freezing (caused.trans begins.caused) ?_ thawed ?_
  · rw [siblings_ok rfl forest' there' model' begins.listed, concept', keyed]
    exact ⟨kept x member, fun same => other x member (same.trans id)⟩
  · cases marked : x.isSoftDeleted with
    | false => rfl
    | true => exact nomatch thawed.symm.trans (setups.deleted parent.id x member marked)

/-- A creation leaves the setups in order, up to those that its cascades freeze. -/
theorem CreateEffect.setups {c : Concept} {orderKey : Option Int64} {cascades : List Cascade}
    (standard : env.registry = Registry.standard) (forest : Forest (d.find? p))
    (setups : Setups (d.find? p) soon) (effect : CreateEffect env p d c orderKey cascades d') :
    Setups (d'.find? p) fun id => soon id ∨ Freezes (cascades.map (place p)) p id := by
  have forest' := effect.forest standard forest
  cases effect with
  | skipped => exact setups.mono fun _ waits => .inl waits
  | @stored container container' c' c'' before after _ request _ _ absent entered hooked =>
    have housed := request.housed
    obtain ⟨id, outline, -, -⟩ := request.child standard
    have type : c'.conceptType = c.conceptType := congrArg Outline.conceptType outline
    have held : c'.container = c.container := congrArg Outline.container outline
    have empty : ∀ s, ¬ Member (d.find? p) c'.id s := fun s => not_member_of_absent forest absent
    cases entered with
    | root =>
      rw [find?_put_same, find?_allot_eq]
      refine setups.added (c := { c' with revisionNumber := d.revision p })
        (fun _ waits => .inl waits) absent empty fun kind => ?_
      have root := housed.1
      rw [show c.conceptType = .iterationSetup from type.symm.trans kind] at root
      cases root
    | @under parent extended attached _ =>
      obtain ⟨-, ⟨y, named, there⟩, -⟩ := housed
      obtain rfl := forest.keyed _ _ there
      obtain ⟨q, declared, target, value, -, rfl⟩ := Concept.attach_ok attached
      have result : (((d.allot p).put p { c' with revisionNumber := d.revision p } false).put p
          { parent.setProperty q.name value with revisionNumber := d.revision p } true).find? p =
          Forest.place (Forest.place (d.find? p) { c' with revisionNumber := d.revision p })
            { parent.setProperty q.name value with revisionNumber := d.revision p } := by
        rw [find?_put_same, find?_put_same, find?_allot_eq]
      have kept : Forest.place (d.find? p) { c' with revisionNumber := d.revision p } parent.id =
          some parent := by
        refine place_eq_some_iff.mpr (.inr ⟨fun same => ?_, there⟩)
        rw [same] at there
        cases absent.symm.trans there
      have other : parent.conceptType ≠ .iterationSetup := by
        intro kind
        rw [kind] at declared
        cases declared
      rw [result]
      refine (setups.added (c := { c' with revisionNumber := d.revision p })
        (fun _ waits => .inl waits) absent empty fun kind y named' => ?_).replaced_container kept
          rfl rfl other (Same.attach attached).active
      cases (held.trans named).symm.trans named'
      have joins := request.joins standard forest setups (type.symm.trans kind) there forest'
        (by rw [result]; exact place_eq_some_iff.mpr (.inl ⟨rfl, rfl⟩))
        (by rw [result]; exact fun s member => member.entered forest absent rfl) hooked
      refine { joins with followed := fun s member thawed => .inr ?_ }
      rw [List.map_append]
      exact Freezes.append.mpr (.inr (joins.followed s member thawed))

end Batch

end ConceptLedger
