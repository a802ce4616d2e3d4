import ConceptLedger.Hook.IterationSetup
import ConceptLedger.Proofs.Containment.Forest

/-!
The iteration setups of a container, as a property of the concepts in a partition. While a batch is
running, a setup may still wait to be frozen; the predicate `soon` says which do. Every kind of
change keeps the property, and freezing a setup takes it off that list.
-/

namespace ConceptLedger.IterationSetup

open Lifecycle Forest

/-- A stored setup in a container. -/
structure Member (f : ConceptId → Option Concept) (e : ConceptId) (s : Concept) : Prop where
  stored : f s.id = some s
  kind : s.conceptType = .iterationSetup
  container : s.container = some e

/-- The setups of every container are in order: all but the newest are frozen or will be soon, a
setup is marked as deleted or gives up being selected only when frozen, the numbers are positive and
distinct, and a source is an earlier setup of the same container. -/
structure Setups (f : ConceptId → Option Concept) (soon : ConceptId → Prop) : Prop where
  newest : ∀ e s, Member f e s → isFrozen s = false →
    soon s.id ∨ ∀ s', Member f e s' → iterationNumber s' ≤ iterationNumber s
  deleted : ∀ e s, Member f e s → s.isSoftDeleted = true → isFrozen s = true
  selected : ∀ e y s, f y = some e → Member f y s →
    e.ref? Property.activeIterationSetup = some s.id → isFrozen s = false
  positive : ∀ e s, Member f e s → 1 ≤ iterationNumber s
  distinct : ∀ e s s', Member f e s → Member f e s' → iterationNumber s = iterationNumber s' →
    s.id = s'.id
  source : ∀ e s t, Member f e s → s.ref? Property.sourceIterationSetup = some t →
    ∃ s', Member f e s' ∧ s'.id = t ∧ iterationNumber s' < iterationNumber s

namespace Setups

variable {f : ConceptId → Option Concept} {soon later : ConceptId → Prop} {c former : Concept}
  {e x y top : ConceptId} {s : Concept}

theorem empty : Setups (fun _ => none) fun _ => False where
  newest _ _ member := nomatch member.stored
  deleted _ _ member := nomatch member.stored
  selected _ _ _ stored := nomatch stored
  positive _ _ member := nomatch member.stored
  distinct _ _ _ member := nomatch member.stored
  source _ _ _ member := nomatch member.stored

theorem mono (setups : Setups f soon) (grows : ∀ id, soon id → later id) : Setups f later :=
  { setups with
    newest := fun e s member thawed => (setups.newest e s member thawed).imp (grows s.id) id }

/-- Setups that wait to be frozen may be taken off the list if they are frozen already, or if they
are not among the stored setups at all. -/
theorem settle (setups : Setups f soon)
    (done : ∀ e s, Member f e s → isFrozen s = false → soon s.id → later s.id) : Setups f later :=
  { setups with
    newest := fun e s member thawed =>
      (setups.newest e s member thawed).imp (done e s member thawed) id }

/-- What a state that replaces a stored one of the same outline must keep. The last condition is
about the setups in the concept itself. -/
structure Replaces (f : ConceptId → Option Concept) (former c : Concept) : Prop where
  id : c.id = former.id
  outline : c.outline = former.outline
  number : former.conceptType = .iterationSetup → iterationNumber c = iterationNumber former
  source : former.conceptType = .iterationSetup →
    c.ref? Property.sourceIterationSetup = former.ref? Property.sourceIterationSetup
  frozen : former.conceptType = .iterationSetup → isFrozen former = true → isFrozen c = true
  deleted : former.conceptType = .iterationSetup → c.isSoftDeleted = true → isFrozen c = true
  selected : former.conceptType = .iterationSetup → isFrozen c = true → ∀ y e,
    former.container = some y → f y = some e → e.ref? Property.activeIterationSetup ≠ some former.id
  selects : ∀ s, Member f former.id s → c.ref? Property.activeIterationSetup = some s.id →
    isFrozen s = false
  apart : former.conceptType = .iterationSetup → former.container ≠ some former.id

/-- A member after a replacement is the new state or was a member before. -/
theorem member_place (stored : f former.id = some former) (replaces : Replaces f former c)
    (member : Member (place f c) e s) :
    (s = c ∧ Member f e former) ∨ (s.id ≠ former.id ∧ Member f e s) := by
  rcases place_eq_some_iff.mp member.stored with ⟨-, rfl⟩ | ⟨other, before⟩
  · have kind := congrArg Outline.conceptType replaces.outline
    have container := congrArg Outline.container replaces.outline
    exact .inl ⟨rfl, stored, kind.symm.trans member.kind, container.symm.trans member.container⟩
  · exact .inr ⟨replaces.id ▸ other, before, member.kind, member.container⟩

/-- A member before a replacement has a member after it with the same identifier and number. -/
theorem place_member (stored : f former.id = some former) (replaces : Replaces f former c)
    (member : Member f e s) : ∃ s', Member (place f c) e s' ∧ s'.id = s.id ∧
      iterationNumber s' = iterationNumber s := by
  by_cases here : s.id = former.id
  · have same := member.stored
    rw [here, stored] at same
    cases same
    have kind := congrArg Outline.conceptType replaces.outline
    have container := congrArg Outline.container replaces.outline
    exact ⟨c, ⟨place_eq_some_iff.mpr (.inl ⟨rfl, rfl⟩), kind.trans member.kind,
      container.trans member.container⟩, replaces.id, replaces.number member.kind⟩
  · refine ⟨s, ⟨place_eq_some_iff.mpr (.inr ⟨?_, member.stored⟩), member.kind, member.container⟩, rfl,
      rfl⟩
    rw [replaces.id]
    exact here

/-- Every later member stems from a former one with the same identifier, number and source. -/
theorem place_origin (stored : f former.id = some former) (replaces : Replaces f former c)
    (member : Member (place f c) e s) : ∃ s₀, Member f e s₀ ∧ s.id = s₀.id ∧
      iterationNumber s = iterationNumber s₀ ∧
      s.ref? Property.sourceIterationSetup = s₀.ref? Property.sourceIterationSetup ∧
      (isFrozen s = false → isFrozen s₀ = false) := by
  rcases member_place stored replaces member with ⟨rfl, before⟩ | ⟨-, before⟩
  · refine ⟨former, before, replaces.id, replaces.number before.kind, replaces.source before.kind,
      fun thawed => ?_⟩
    cases cold : isFrozen former with
    | false => rfl
    | true => exact absurd (replaces.frozen before.kind cold) (by simp [thawed])
  · exact ⟨s, before, rfl, rfl, rfl, id⟩

theorem replaced (setups : Setups f soon) (stored : f former.id = some former)
    (replaces : Replaces f former c) : Setups (place f c) soon where
  newest e s member thawed := by
    obtain ⟨s₀, before, id, number, -, thaws⟩ := place_origin stored replaces member
    rw [id, number]
    refine (setups.newest e s₀ before (thaws thawed)).imp (fun waits => waits) ?_
    intro greatest s' member'
    obtain ⟨s₁, before', -, number', -⟩ := place_origin stored replaces member'
    rw [number']
    exact greatest s₁ before'
  deleted e s member marked := by
    rcases member_place stored replaces member with ⟨rfl, before⟩ | ⟨-, before⟩
    · exact replaces.deleted before.kind marked
    · exact setups.deleted e s before marked
  selected e y s there member chosen := by
    rcases place_eq_some_iff.mp there with ⟨rfl, rfl⟩ | ⟨elsewhere, before'⟩
    · rcases member_place stored replaces member with ⟨rfl, before⟩ | ⟨-, before⟩
      · exact absurd (replaces.id ▸ before.container) (replaces.apart before.kind)
      · rw [replaces.id] at before
        exact replaces.selects s before chosen
    · rcases member_place stored replaces member with ⟨rfl, before⟩ | ⟨-, before⟩
      · cases cold : isFrozen s with
        | false => rfl
        | true =>
          exact absurd (replaces.id ▸ chosen)
            (replaces.selected before.kind cold y e before.container before')
      · exact setups.selected e y s before' before chosen
  positive e s member := by
    obtain ⟨s₀, before, -, number, -⟩ := place_origin stored replaces member
    rw [number]
    exact setups.positive e s₀ before
  distinct e s s' member member' same := by
    obtain ⟨s₀, before, id, number, -⟩ := place_origin stored replaces member
    obtain ⟨s₁, before', id', number', -⟩ := place_origin stored replaces member'
    rw [id, id']
    exact setups.distinct e s₀ s₁ before before' (number ▸ number' ▸ same)
  source e s t member named := by
    obtain ⟨s₀, before, id, number, source, -⟩ := place_origin stored replaces member
    obtain ⟨t₀, there, rfl, below⟩ := setups.source e s₀ t before (source ▸ named)
    obtain ⟨t₁, after, same, number'⟩ := place_member stored replaces there
    exact ⟨t₁, after, same, by rwa [number', number]⟩

/-- A concept other than an iteration setup may change at will as long as it selects the same. -/
theorem replaced_container (setups : Setups f soon) (stored : f former.id = some former)
    (id : c.id = former.id) (outline : c.outline = former.outline)
    (other : former.conceptType ≠ .iterationSetup)
    (active : c.ref? Property.activeIterationSetup = former.ref? Property.activeIterationSetup) :
    Setups (place f c) soon :=
  setups.replaced stored
    { id, outline
      number := fun kind => absurd kind other
      source := fun kind => absurd kind other
      frozen := fun kind => absurd kind other
      deleted := fun kind => absurd kind other
      selected := fun kind => absurd kind other
      selects := fun s member chosen =>
        setups.selected former former.id s stored member (active ▸ chosen)
      apart := fun kind => absurd kind other }

theorem member_cut (member : Member (Forest.cut f top) e s) : Member f e s :=
  ⟨(cut_eq_some_iff.mp member.stored).2, member.kind, member.container⟩

/-- Cutting off a branch. If a setup is cut off by itself it must be thawed and not about to be
frozen; it is then the newest of its siblings, and so the source of none. -/
theorem cut (setups : Setups f soon) (stored : f top = some former) (keyed : former.id = top)
    (thawed : former.conceptType = .iterationSetup → isFrozen former = false ∧ ¬ soon top) :
    Setups (Forest.cut f top) soon where
  newest e s member cold :=
    (setups.newest e s (member_cut member) cold).imp (fun waits => waits)
      fun greatest s' member' => greatest s' (member_cut member')
  deleted e s member := setups.deleted e s (member_cut member)
  selected e y s there member := setups.selected e y s (cut_eq_some_iff.mp there).2 (member_cut member)
  positive e s member := setups.positive e s (member_cut member)
  distinct e s s' member member' := setups.distinct e s s' (member_cut member) (member_cut member')
  source e s t member named := by
    obtain ⟨t₀, there, rfl, below⟩ := setups.source e s t (member_cut member) named
    refine ⟨t₀, ⟨cut_eq_some_iff.mpr ⟨?_, there.stored⟩, there.kind, there.container⟩, rfl, below⟩
    -- the container of a setup that stays is outside of the branch
    have outside : ¬ Outline.Within (outlines f) top e := by
      obtain ⟨apart, here⟩ := cut_eq_some_iff.mp member.stored
      exact Outline.container_outside apart (outlines_eq_some_iff.mpr ⟨s, here, rfl⟩) member.container
    have child : outlines f t₀.id = some ⟨t₀.conceptType, some e⟩ := by
      refine outlines_eq_some_iff.mpr ⟨t₀, there.stored, ?_⟩
      rw [Concept.outline, there.container]
    rcases top_or_outside outside child with same | apart
    · obtain rfl : former = t₀ := Option.some.inj (stored.symm.trans (same ▸ there.stored))
      obtain ⟨warm, stays⟩ := thawed there.kind
      rcases setups.newest e former there warm with waits | greatest
      · exact absurd (keyed ▸ waits) stays
      · have above := greatest s (member_cut member)
        exact absurd (Int64.lt_of_lt_of_le below above) Int64.lt_irrefl
    · exact apart

/-- What a new setup brings along: the next number, no mark of deletion, and a source among its
siblings, which will all be frozen. -/
structure Joins (f : ConceptId → Option Concept) (later : ConceptId → Prop) (e : ConceptId)
    (c : Concept) : Prop where
  positive : 1 ≤ iterationNumber c
  greatest : ∀ s, Member f e s → iterationNumber s < iterationNumber c
  thawed : isFrozen c = false
  unmarked : c.isSoftDeleted = false
  source : ∀ t, c.ref? Property.sourceIterationSetup = some t → ∃ s, Member f e s ∧ s.id = t
  followed : ∀ s, Member f e s → isFrozen s = false → later s.id

/-- A member after an addition is the new setup or was a member before. -/
theorem member_added
    (joins : c.conceptType = .iterationSetup → ∀ y, c.container = some y → Joins f later y c)
    (member : Member (place f c) e s) : (s = c ∧ Joins f later e c) ∨ Member f e s := by
  rcases place_eq_some_iff.mp member.stored with ⟨-, rfl⟩ | ⟨-, before⟩
  · exact .inl ⟨rfl, joins member.kind e member.container⟩
  · exact .inr ⟨before, member.kind, member.container⟩

theorem added_member (absent : f c.id = none) (member : Member f e s) : Member (place f c) e s := by
  refine ⟨place_eq_some_iff.mpr (.inr ⟨fun same => ?_, member.stored⟩), member.kind, member.container⟩
  have stored := member.stored
  rw [same, absent] at stored
  cases stored

/-- Adding a concept. If it is a setup, its siblings must be about to be frozen. -/
theorem added (setups : Setups f soon) (grows : ∀ id, soon id → later id) (absent : f c.id = none)
    (empty : ∀ s, ¬ Member f c.id s)
    (joins : c.conceptType = .iterationSetup → ∀ y, c.container = some y → Joins f later y c) :
    Setups (place f c) later where
  newest e s member cold := by
    rcases member_added joins member with ⟨rfl, new⟩ | before
    · right
      intro s' member'
      rcases member_added joins member' with ⟨rfl, -⟩ | before'
      · exact Int64.le_refl _
      · exact Int64.le_of_lt (new.greatest s' before')
    · by_cases here : ∃ s', Member (place f c) e s' ∧ ¬ Member f e s'
      · obtain ⟨s', member', fresh⟩ := here
        obtain ⟨rfl, new⟩ := (member_added joins member').resolve_right fresh
        exact .inl (new.followed s before cold)
      · refine (setups.newest e s before cold).imp (grows s.id) fun greatest s' member' => ?_
        refine greatest s' ?_
        by_contra fresh
        exact here ⟨s', member', fresh⟩
  deleted e s member marked := by
    rcases member_added joins member with ⟨rfl, new⟩ | before
    · rw [new.unmarked] at marked
      cases marked
    · exact setups.deleted e s before marked
  selected e y s there member chosen := by
    rcases member_added joins member with ⟨rfl, new⟩ | before
    · exact new.thawed
    · rcases place_eq_some_iff.mp there with ⟨rfl, rfl⟩ | ⟨-, there'⟩
      · exact absurd before (empty s)
      · exact setups.selected e y s there' before chosen
  positive e s member := by
    rcases member_added joins member with ⟨rfl, new⟩ | before
    · exact new.positive
    · exact setups.positive e s before
  distinct e s s' member member' same := by
    rcases member_added joins member with ⟨rfl, new⟩ | before <;>
      rcases member_added joins member' with ⟨rfl, new'⟩ | before'
    · rfl
    · have above := new.greatest s' before'
      rw [same] at above
      exact absurd above Int64.lt_irrefl
    · have above := new'.greatest s before
      rw [same] at above
      exact absurd above Int64.lt_irrefl
    · exact setups.distinct e s s' before before' same
  source e s t member named := by
    rcases member_added joins member with ⟨rfl, new⟩ | before
    · obtain ⟨t₀, there, rfl⟩ := new.source t named
      exact ⟨t₀, added_member absent there, rfl, new.greatest t₀ there⟩
    · obtain ⟨t₀, there, same, below⟩ := setups.source e s t before named
      exact ⟨t₀, added_member absent there, same, below⟩

end Setups

end ConceptLedger.IterationSetup
