import ConceptLedger.Proofs.Batch.Chain
import ConceptLedger.Proofs.Concept.Lists
import ConceptLedger.Proofs.Containment.Origin
import ConceptLedger.Proofs.Read.Descent
import ConceptLedger.Proofs.Tables.Codec
import Mathlib.Data.Set.Finite.Basic

/-!
The deletion of a concept without rules of its own. It takes away the concept with everything that is
contained in it, and nothing else but its entry in the list of its container, and accounts for what is
gone with one record each.
-/

namespace ConceptLedger

namespace Batch

open Step Forest

variable {env : Setting} {p : Partition} {d d' : Draft}

section Removed

variable {order : List (ConceptId × ConceptType)}

theorem Removed.allocated (run : Removed p d order d') : d'.allocated = d.allocated := by
  induction run with
  | done => rfl
  | next _ _ ih => rw [ih, Draft.allocated_drop]

/-- What is removed is touched in the order of its removal. -/
theorem Removed.touched (run : Removed p d order d') (once : (order.map (·.1)).Nodup)
    (fresh : ∀ e ∈ order, d.isTouched ⟨p, e.1⟩ = false) :
    d'.touched = d.touched ++ order.map fun e => ⟨⟨p, e.1⟩, true⟩ := by
  induction run with
  | done => exact (List.append_nil _).symm
  | @next d d' entry rest _ _ ih =>
    obtain ⟨apart, once'⟩ := List.nodup_cons.mp once
    have first : (d.drop p entry).touched = d.touched ++ [⟨⟨p, entry.1⟩, true⟩] := by
      show (d.mark ⟨p, entry.1⟩ true).touched = _
      rw [Draft.touched_mark, fresh entry List.mem_cons_self]
      rfl
    have fresh' : ∀ e ∈ rest, (d.drop p entry).isTouched ⟨p, e.1⟩ = false := by
      intro e later
      rw [← Bool.not_eq_true, Draft.isTouched_drop, fresh e (List.mem_cons_of_mem _ later)]
      rintro (never | same)
      · cases never
      · exact apart (List.mem_map.mpr ⟨e, later, congrArg Address.id same⟩)
    rw [ih once' fresh', first, List.append_assoc]
    rfl

/-- The types of what is removed are noted down. -/
theorem Removed.noted (run : Removed p d order d') (once : (order.map (·.1)).Nodup) :
    (∀ e ∈ order, d'.removed.find? ⟨p, e.1⟩ = some e.2) ∧
      ∀ id ∉ order.map (·.1), d'.removed.find? ⟨p, id⟩ = d.removed.find? ⟨p, id⟩ := by
  induction run with
  | done => exact ⟨nofun, fun _ _ => rfl⟩
  | @next d d' entry rest _ _ ih =>
    obtain ⟨apart, once'⟩ := List.nodup_cons.mp once
    obtain ⟨types, others⟩ := ih once'
    constructor
    · intro e member
      rcases List.mem_cons.mp member with rfl | later
      · rw [others e.1 apart, Draft.removed_drop, SortedMap.find?_insert, if_pos rfl]
      · exact types e later
    · intro id outside
      obtain ⟨other, outside'⟩ := not_or.mp (mt List.mem_cons.mpr outside)
      rw [others id outside', Draft.removed_drop, SortedMap.find?_insert, if_neg]
      exact fun same => other (congrArg Address.id same)

end Removed

/-- The change by which a container loses a child. -/
def leaving (p : Partition) (r : UInt64) (child : ConceptId) (parent : Concept) : Partition × Change :=
  (p, ⟨parent.id, parent.conceptType, some { parent.detach child with revisionNumber := r }⟩)

/-- What the deletion of a concept makes of a draft: the branch is cut off, in an order that was
collected, and these are all the changes. -/
structure Deletion (p : Partition) (d : Draft) (former : Concept)
    (order : List (ConceptId × ConceptType)) (d' : Draft) : Prop where
  cutOff : CutOff (d.find? p) former (d.revision p) (d'.find? p)
  elsewhere : ∀ q, q ≠ p → d'.find? q = d.find? q
  collected : Collected (d.find? p) former.id order
  changes : d'.changes = order.map (fun e => (p, ⟨e.1, e.2, none⟩)) ++
    ((former.container.bind (d.find? p)).map (leaving p (d.revision p) former.id)).toList
  allocated : d'.allocated.find? p = some (d.revision p)
  room : d.allocated.find? p = none → d.contents.counter p < d.revision p

theorem settled_of_stored {id : ConceptId} {c : Concept} (stored : d.find? p id = some c)
    (existed : Bool) :
    d.settled ⟨⟨p, id⟩, existed⟩ = some (p, ⟨id, c.conceptType, some c⟩) := by
  simp only [Draft.settled, stored]

section Left

variable {order : List (ConceptId × ConceptType)} {d₁ : Draft} (once : (order.map (·.1)).Nodup)
  (run : Removed p d order d₁) (gone : ∀ e ∈ order, d₁.find? p e.1 = none)

include once run

/-- The changes of what is removed come first. -/
theorem Removed.changes {touched : List Touch} (gone : ∀ e ∈ order, d'.find? p e.1 = none)
    (noted : d'.removed = d₁.removed)
    (first : d'.touched = (order.map fun e => ⟨⟨p, e.1⟩, true⟩) ++ touched) :
    d'.changes = order.map (fun e => (p, ⟨e.1, e.2, none⟩)) ++ touched.filterMap d'.settled := by
  have types := (run.noted once).1
  rw [Draft.changes, first, List.filterMap_append, List.filterMap_map]
  congr 1
  rw [← List.filterMap_eq_map]
  refine List.filterMap_congr fun e member => ?_
  have type : d'.removed.find? ⟨p, e.1⟩ = some e.2 := noted ▸ types e member
  simp only [Function.comp_apply, Draft.settled, gone e member, type]

include gone

/-- The container that is left is the last that changes. -/
theorem Left.changes {r : UInt64} {child : ConceptId} {container container' : Option Concept}
    (touched : d₁.touched = order.map fun e => ⟨⟨p, e.1⟩, true⟩)
    (left : Left p d₁ r child container container' d') :
    d'.changes = order.map (fun e => (p, ⟨e.1, e.2, none⟩)) ++
      (container.map (leaving p r child)).toList := by
  cases left with
  | root =>
    rw [run.changes once gone rfl (touched.trans (List.append_nil _).symm)]
    rfl
  | @under parent present =>
    have same := parent.detach_id child
    have apart : ∀ e ∈ order, e.1 ≠ parent.id := by
      intro e member inside
      rw [← inside, gone e member] at present
      cases present
    have fresh : d₁.isTouched ⟨p, parent.id⟩ = false := by
      rw [← Bool.not_eq_true, Draft.isTouched_iff, touched, List.map_map]
      intro member
      obtain ⟨e, inside, here⟩ := List.mem_map.mp member
      exact apart e inside (congrArg Address.id here)
    generalize after : ({ parent.detach child with revisionNumber := r } : Concept) = c
    have id : c.id = parent.id := after ▸ same
    have type : c.conceptType = parent.conceptType := after ▸ parent.detach_conceptType child
    have line : (d₁.put p c true).touched =
        (order.map fun e => ⟨⟨p, e.1⟩, true⟩) ++ [⟨⟨p, parent.id⟩, true⟩] := by
      show (d₁.mark ⟨p, c.id⟩ true).touched = _
      rw [id, Draft.touched_mark, fresh, touched]
      rfl
    have stored : (d₁.put p c true).find? p parent.id = some c := by
      rw [Draft.find?_put, if_pos ⟨rfl, id.symm⟩]
    rw [run.changes once (fun e member => ?_) (Draft.removed_put _ _ _) line,
      List.filterMap_cons_some (settled_of_stored stored true), List.filterMap_nil, Option.map_some,
      leaving, after, type]
    · rfl
    · rw [Draft.find?_put, if_neg, gone e member]
      exact fun both => apart e member (both.2.trans id)

end Left

/-- A deletion that no hooks take part in. -/
theorem DeleteEffect.deletion {id : ConceptId} {t : ConceptType} {cascades : List Cascade}
    (forest : Forest (d.find? p)) (untouched : d.touched = [])
    (unhooked : env.registry.hooksFor t = []) (effect : DeleteEffect env p d id t cascades d') :
    cascades = [] ∧ ∃ former order, d.find? p id = some former ∧ former.conceptType = t ∧
      Deletion p d former order d' := by
  have elsewhere : ∀ q, q ≠ p → d'.find? q = d.find? q :=
    fun q other => Effect.elsewhere (.delete effect) other
  cases effect with
  | @skipped former _ _ _ request skip =>
    obtain ⟨-, rfl⟩ := request.hooked.of_none (request.sameType ▸ unhooked)
    cases skip
  | kept request convert _ _ | marked request convert _ _ _ _ =>
    obtain ⟨-, rfl⟩ := request.hooked.of_none (request.sameType ▸ unhooked)
    cases convert
  | @removed former _ _ container container' _ _ order d₁ _ request _ room listed removed left hooked =>
    obtain ⟨same, rfl⟩ := request.hooked.of_none (request.sameType ▸ unhooked)
    rw [same] at hooked
    obtain ⟨-, rfl⟩ := hooked.of_none (request.sameType ▸ unhooked)
    obtain rfl := forest.keyed _ _ request.stored
    refine ⟨rfl, former, order, request.stored, request.sameType, ?_⟩
    have allotted : (d.allot p).view.contents.find? p = d.find? p := find?_allot_eq d p p
    obtain ⟨order', listed', collected, -⟩ := subtree_memory (v := (d.allot p).view) (p := p)
      (c := former) (allotted.symm ▸ forest.keyed) (allotted.symm ▸ request.stored)
    cases listed.symm.trans listed'
    rw [allotted] at collected
    have cutOff := left.cutOff forest request.stored request.within
      (removed.cut forest request.stored listed)
    have untouched' : (d.allot p).touched = [] := (Draft.touched_allot p).trans untouched
    have touched := removed.touched collected.once fun e _ => by
      rw [Draft.isTouched, untouched']
      rfl
    rw [untouched', List.nil_append] at touched
    have gone : ∀ e ∈ order, d₁.find? p e.1 = none := by
      intro e member
      rw [removed.find?, if_pos ⟨rfl, List.mem_map_of_mem member⟩]
    have allocated : d₁.allocated.find? p = some (d.revision p) := by
      rw [removed.allocated]
      exact d.allocated_allot p
    have changes := left.changes collected.once removed gone touched
    rw [request.within] at changes
    refine ⟨cutOff, elsewhere, collected, changes, ?_, room⟩
    cases left with
    | root => exact allocated
    | under present => rwa [Draft.allocated_put]

namespace CutOff

variable {f f' : ConceptId → Option Concept} {top : Concept} {r : UInt64} {x y : ConceptId}
  (cutOff : CutOff f top r f')

include cutOff

/-- Of what is stored, the branch is gone. -/
theorem gone_iff {c : Concept} (there : f x = some c) :
    f' x = none ↔ Outline.Within (outlines f) top.id x := by
  refine ⟨fun absent => ?_, cutOff.gone⟩
  by_contra outside
  obtain ⟨c', stored, -⟩ := cutOff.rest outside there
  cases absent.symm.trans stored

/-- Outside of the branch and away from the container of its top, nothing changes. -/
theorem kept (outside : ¬ Outline.Within (outlines f) top.id x) (apart : top.container ≠ some x) :
    f' x = f x := by
  have cut : Forest.cut f top.id x = f x := if_neg outside
  cases cutOff with
  | root alone => exact cut
  | @under parent container above outside =>
    unfold Forest.place
    rw [if_neg, cut]
    intro here
    exact apart (container.trans (congrArg some (here.trans (parent.detach_id top.id)).symm))

theorem left (container : top.container = some y) :
    ∃ parent, f y = some parent ∧ f' y = some { parent.detach top.id with revisionNumber := r } := by
  cases cutOff with
  | root alone => cases alone.symm.trans container
  | @under parent named above outside =>
    cases named.symm.trans container
    exact ⟨parent, above, if_pos (parent.detach_id top.id).symm⟩

end CutOff

namespace Deletion

variable {former : Concept} {order : List (ConceptId × ConceptType)}
  (deletion : Deletion p d former order d')

include deletion

/-- What is answered as removed is what was collected, in that order. -/
theorem outcome_removed : (d'.outcome p).removed = order.map (·.1) := by
  have gone : ((order.map fun e => ((p, ⟨e.1, e.2, none⟩) : Partition × Change)).filter
      fun x => x.2.state.isNone) = order.map fun e => (p, ⟨e.1, e.2, none⟩) := by
    refine List.filter_eq_self.mpr fun x member => ?_
    obtain ⟨e, -, rfl⟩ := List.mem_map.mp member
    rfl
  show ((d'.changes.filter fun x => x.2.state.isNone).map (·.2.id)) = _
  rw [deletion.changes, List.filter_append, gone]
  cases former.container.bind (d.find? p) <;> simp [leaving]

/-- One record for each concept that is gone, and one for the container that is left. -/
theorem records (forest : Forest (d.find? p)) (time : Instant) :
    d'.changes.map (recordAt d'.allocated time) =
      ((order.map (·.1)).filterMap (d.find? p)).map
        (fun c => ⟨p, c.id, c.conceptType, d.revision p, none, time⟩) ++
      ((former.container.bind (d.find? p)).map fun parent => (⟨p, parent.id, parent.conceptType,
        d.revision p, d'.find? p parent.id, time⟩ : RevisionRecord)).toList := by
  rw [deletion.changes, List.map_append, List.map_map]
  congr 1
  · rw [List.filterMap_map, List.map_filterMap, ← List.filterMap_eq_map]
    refine List.filterMap_congr fun e member => ?_
    obtain ⟨c, stored, type⟩ := Option.map_eq_some_iff.mp (deletion.collected.typed e member)
    have own := forest.keyed e.1 c stored
    simp only [Function.comp_apply, stored, Option.map_some, own, type, recordAt, deletion.allocated,
      Option.getD_some]
  · cases within : former.container.bind (d.find? p) with
    | none => rfl
    | some parent =>
      obtain ⟨y, container, there⟩ := Option.bind_eq_some_iff.mp within
      obtain ⟨parent', there', after⟩ := deletion.cutOff.left container
      cases there.symm.trans there'
      have own := forest.keyed y parent there
      simp only [Option.map_some, Option.toList_some, List.map_cons, List.map_nil, leaving, recordAt,
        deletion.allocated, Option.getD_some, own, after]

end Deletion

/-- On tables a subtree is collected where everything can be looked for, whatever is stored. -/
theorem subtree_tables {v : Tables.View} {f : ConceptId → Option Concept}
    (legible : ∀ id, v.find p id = .ok (f id)) {c : Concept} (stored : f c.id = some c) :
    ∃ order, subtree v p c = .ok order ∧ Collected f c.id order ∧
      ∀ more, (walk (ConceptStore.find? v p) (ConceptStore.extent v + 1 + more) c ⟨[c.id], []⟩).map
        (·.order) = .ok order := by
  let r : Reader Tables.View := ⟨v, ({} : ScopeDefaults).gate, default, p, {}⟩
  have regular : r.Regular := Reader.regular_tables rfl
  have lookup : ∀ id, ConceptStore.find? v p id = .ok (f id) :=
    fun id => (Tables.View.find?_eq v p id).trans (legible id)
  have few : ∀ ids : Finset ConceptId, (∀ id ∈ ids, (f id).isSome = true) →
      ids.card ≤ ConceptStore.extent v := by
    intro ids there
    rw [← Finset.length_toList]
    refine regular.few _ ids.nodup_toList fun id member => ?_
    obtain ⟨c, found⟩ := Option.isSome_iff_exists.mp (there id (Finset.mem_toList.mp member))
    exact ⟨c, (lookup id).trans (congrArg Except.ok found)⟩
  have finite : {x | (f x).isSome = true}.Finite := by
    by_contra infinite
    obtain ⟨ids, inside, card⟩ :=
      Set.Infinite.exists_subset_card_eq infinite (ConceptStore.extent v + 1)
    have bound := few ids fun id member => inside member
    omega
  have bound := few finite.toFinset fun id member => finite.mem_toFinset.mp member
  have known : ∀ x, (f x).isSome = true → x ∈ finite.toFinset :=
    fun x here => finite.mem_toFinset.mpr here
  refine subtree_collected (funext lookup) (fun x c found => ?_) known ?_ stored
  · exact regular.keyed x c ((lookup x).trans (congrArg Except.ok found))
  · have fewer : (Walk.unseen finite.toFinset ⟨[c.id], []⟩).card ≤ finite.toFinset.card :=
      Finset.card_filter_le _ _
    omega

end Batch

namespace Memory

open Batch Forest

/-- The containers of a concept, from itself on, pass through another one. -/
def Contents.PassesThrough (s : Contents) (p : Partition) (x top : ConceptId) : Prop :=
  ∃ n c, s.ancestor? p n x = some c ∧ c.id = top

theorem passesThrough_iff_within {s : Contents} {p : Partition} (forest : Forest (s.find? p))
    {x top : ConceptId} (stored : (s.find? p top).isSome = true) :
    s.PassesThrough p x top ↔ Outline.Within (outlines (s.find? p)) top x := by
  constructor
  · rintro ⟨n, c, reached, rfl⟩
    induction n generalizing x with
    | zero =>
      rw [forest.keyed x c reached]
      exact .top
    | succ n ih =>
      obtain ⟨y, above, reached⟩ := Option.bind_eq_some_iff.mp reached
      obtain ⟨c', there, container⟩ := Option.bind_eq_some_iff.mp above
      exact .under (outlines_eq_some_iff.mpr ⟨c', there, rfl⟩) container (ih reached)
  · intro within
    induction within with
    | top =>
      obtain ⟨c, there⟩ := Option.isSome_iff_exists.mp stored
      exact ⟨0, c, there, forest.keyed top c there⟩
    | under placed container _ ih =>
      obtain ⟨c', there, rfl⟩ := outlines_eq_some_iff.mp placed
      obtain ⟨n, c, reached, same⟩ := ih
      refine ⟨n + 1, c, ?_, same⟩
      rw [Contents.ancestor?, there, Option.bind_some, show c'.container = _ from container,
        Option.bind_some, reached]

/-- A container that has lost a child: it is as it was, except that no list names the child any more and
for its revision, which has gone up. -/
structure Forsaken (child : ConceptId) (parent parent' : Concept) : Prop where
  same : parent' = { parent.detach child with revisionNumber := parent'.revisionNumber }
  unlisted : ∀ q ∈ parent'.conceptType.containment, child ∉ parent'.members q
  raised : parent.revisionNumber < parent'.revisionNumber

/-- What a committed deletion of a concept for good has made of the contents and what it answers. Just
what is contained in the concept, itself included, is gone. It is answered once, children before their
containers, and recorded with one removal each, besides the one record of the container that is left. -/
structure Contents.Bereft (before after : Contents) (p : Partition) (former : Concept)
    (outcome : BatchOutcome) : Prop where
  gone : ∀ x c, before.find? p x = some c →
    (after.find? p x = none ↔ before.PassesThrough p x former.id)
  once : outcome.removed.Nodup
  removed : ∀ x, x ∈ outcome.removed ↔ (before.find? p x).isSome = true ∧ after.find? p x = none
  sorted : outcome.removed.Pairwise fun x y => ∀ c, before.find? p y = some c → c.container ≠ some x
  left : ∀ y, former.container = some y → ∃ parent parent', before.find? p y = some parent ∧
    after.find? p y = some parent' ∧ Forsaken former.id parent parent' ∧
    outcome.revision = some parent'.revisionNumber
  kept : ∀ q x, q ≠ p ∨ x ∉ outcome.removed ∧ former.container ≠ some x →
    after.find? q x = before.find? q x
  recorded : ∃ r time records, outcome.revision = some r ∧ after.log = before.log ++ records ∧
    records.Perm ((outcome.removed.filterMap (before.find? p)).map
      (fun c => ⟨p, c.id, c.conceptType, r, none, time⟩) ++
      ((former.container.bind (before.find? p)).map fun parent => (⟨p, parent.id, parent.conceptType,
        r, after.find? p parent.id, time⟩ : RevisionRecord)).toList)

/-- A batch of one deletion without hooks that succeeds, in terms of the drafts that it goes through. -/
theorem Committed.deletion {policy : Policy} {request : BatchRequest} {before after : Contents}
    {outcome : BatchOutcome} {id : ConceptId} {t : ConceptType} (forests : before.Forested)
    (single : request.operations = [.delete id t]) (unhooked : policy.registry.hooksFor t = [])
    (committed : Committed policy request before after outcome) :
    ∃ (d d' : Draft) (former : Concept) (order : List (ConceptId × ConceptType)) (time : Instant),
      d.contents = before ∧ d.allocated = .empty ∧ after.find? = d'.find? ∧
      outcome = d'.outcome request.partition ∧ d.find? request.partition id = some former ∧
      former.conceptType = t ∧ Deletion request.partition d former order d' ∧
      after.log = before.log ++ (byPartition d'.changes).map (recordAt d'.allocated time) := by
  obtain ⟨v, ids, s, rfl, rfl, run⟩ := committed.run
  obtain ⟨_, s₁, applied, finished⟩ := Step.bind_eq_ok_iff.mp run
  obtain ⟨contents, answer⟩ := finish_eq finished
  have tracks : Tracks v.contents s₁.draft :=
    (Tracks.start (s := { view := v, ids }) rfl).writes (applyAll_writes applied)
  rw [single] at applied
  generalize request.partition = p at *
  have forest : Forest (Draft.find? ⟨v, [], .empty, .empty⟩ p) := forests p
  cases applyAll_single_chain applied with
  | @next _ d' _ _ _ _ _ effect later =>
    cases effect with
    | delete effect =>
      obtain ⟨rfl, former, order, stored, type, deletion⟩ := effect.deletion forest rfl unhooked
      have drained : Chain _ d' [] s₁.draft := later
      cases drained
      refine ⟨_, s₁.draft, former, order, s₁.view.time, rfl, rfl, ?_, answer, stored, type, deletion, ?_⟩
      · rw [contents]
        rfl
      · rw [contents, ← tracks.log]
        rfl

/-- It leaves the contents bereft of just what it deletes. -/
theorem Committed.bereft {policy : Policy} {request : BatchRequest} {before after : Contents}
    {outcome : BatchOutcome} {id : ConceptId} {t : ConceptType} (forests : before.Forested)
    (stamped : before.Stamped) (single : request.operations = [.delete id t])
    (unhooked : policy.registry.hooksFor t = [])
    (committed : Committed policy request before after outcome) :
    ∃ former, before.find? request.partition id = some former ∧ former.conceptType = t ∧
      before.Bereft after request.partition former outcome := by
  obtain ⟨d, d', former, order, time, rfl, free, same, rfl, stored, type, deletion, log⟩ :=
    committed.deletion forests single unhooked
  generalize request.partition = p at *
  have forest : Forest (d.find? p) := forests p
  have own := forest.keyed _ _ stored
  have here : (d.find? p former.id).isSome = true := by
    rw [own, stored]
    rfl
  have through : ∀ {x}, d.contents.PassesThrough p x former.id ↔
      Outline.Within (outlines (d.find? p)) former.id x :=
    passesThrough_iff_within forest here
  have revision : (d'.outcome p).revision = some (d.revision p) := deletion.allocated
  have removed := deletion.outcome_removed
  have collected : ∀ x, x ∈ order.map (·.1) ↔ (d.find? p x).isSome = true ∧
      Outline.Within (outlines (d.find? p)) former.id x := by
    intro x
    rw [deletion.collected.exact, leads_iff_within forest]
  refine ⟨former, stored, type, ?_⟩
  constructor
  case gone =>
    intro x c there
    rw [same, through]
    exact deletion.cutOff.gone_iff there
  case once =>
    rw [removed]
    exact deletion.collected.once
  case removed =>
    intro x
    rw [removed, collected, same]
    refine and_congr_right fun here => ?_
    obtain ⟨c, there⟩ := Option.isSome_iff_exists.mp here
    exact (deletion.cutOff.gone_iff there).symm
  case sorted =>
    rw [removed]
    refine deletion.collected.sorted.imp fun {x y} back c there container => ?_
    have within := (leads_iff_within forest).mp (back ((lists_iff forest).mpr ⟨c, there, container⟩))
    exact forest.ordered.container_not_within (outlines_eq_some_iff.mpr ⟨c, there, rfl⟩) container within
  case left =>
    intro y container
    obtain ⟨parent, above, after⟩ := deletion.cutOff.left container
    refine ⟨parent, _, above, by rw [same]; exact after, ⟨rfl, fun q declared listed => ?_, ?_⟩, revision⟩
    · have declared : q ∈ parent.conceptType.containment := by
        rwa [show Concept.conceptType _ = _ from parent.detach_conceptType former.id] at declared
      exact ((Concept.mem_members_detach declared).mp listed).2 rfl
    · exact UInt64.lt_of_le_of_lt (stamped ⟨p, y⟩ parent above) (deletion.room (by rw [free]; rfl))
  case kept =>
    intro q x apart
    rw [same]
    by_cases there : q = p
    · subst there
      obtain ⟨kept, other⟩ := apart.resolve_left (not_not_intro rfl)
      refine deletion.cutOff.kept (fun within => kept ?_) other
      rw [removed, collected]
      exact ⟨stored_of_within within here, within⟩
    · exact congrFun (deletion.elsewhere q there) x
  case recorded =>
    refine ⟨_, time, _, revision, log, ?_⟩
    rw [same, removed]
    exact ((byPartition_perm _).map _).trans (.of_eq (deletion.records forest time))

/-- After every history under the standard registry, a batch that deletes a concept whose type has no
hooks and is committed removes just that concept and what it contains, as it answers and records. In
any contents, in memory and on tables, what a deletion is to remove can be collected. -/
theorem deletion_exact :
    (∀ (visits : List Visit), (∀ v ∈ visits, v.policy.registry = Registry.standard) →
      ∀ (policy : Policy) (request : BatchRequest) (now : Instant) (ids : IdSupply) (id : ConceptId)
        (t : ConceptType) (outcome : BatchOutcome), request.operations = [.delete id t] →
        policy.registry.hooksFor t = [] →
        (policy.submit request now ids (Database.after visits)).1.result = .ok outcome →
        ∃ former, (Database.after visits).contents.find? request.partition id = some former ∧
          former.conceptType = t ∧
          (Database.after visits).contents.Bereft
            (policy.submit request now ids (Database.after visits)).2.contents request.partition former
            outcome) ∧
    (∀ (v : View) (p : Partition) (top : Concept), v.contents.Keyed →
      v.contents.find? p top.id = some top →
      ∃ order, subtree v p top = .ok order ∧ Collected (v.contents.find? p) top.id order ∧
        ∀ more, (walk (ConceptStore.find? v p) (ConceptStore.extent v + 1 + more) top
          ⟨[top.id], []⟩).map (·.order) = .ok order) ∧
    ∀ (v : Tables.View) (p : Partition) (f : ConceptId → Option Concept) (top : Concept),
      (∀ id, v.find p id = .ok (f id)) → f top.id = some top →
      ∃ order, subtree v p top = .ok order ∧ Collected f top.id order ∧
        ∀ more, (walk (ConceptStore.find? v p) (ConceptStore.extent v + 1 + more) top
          ⟨[top.id], []⟩).map (·.order) = .ok order := by
  refine ⟨?_, fun v p top keyed stored => subtree_memory (fun x => keyed ⟨p, x⟩) stored,
    fun v p f top legible stored => subtree_tables legible stored⟩
  intro visits standard policy request now ids id t outcome single unhooked done
  rcases submit_contents policy request now ids (Database.after visits) with
    ⟨outcome', done', committed⟩ | ⟨⟨f, failed⟩, -⟩
  · cases done.symm.trans done'
    exact committed.bereft (forested_after visits standard) (sound_after visits).stamped single unhooked
  · cases done.symm.trans failed

/-- The visit that puts a library into the site directory, with two units, of which the first has a name
of its own. -/
def shelving : Visit :=
  .batch {}
    { foundingRequest with
      operations := [
        .create { id := .ofNat 3, conceptType := .siteReferenceDataLibrary, container := some (.ofNat 2) }
          none,
        .create { id := .ofNat 4, conceptType := .simpleUnit, container := some (.ofNat 3) } none,
        .create { id := .ofNat 5, conceptType := .aliasName, container := some (.ofNat 4) } none,
        .create { id := .ofNat 6, conceptType := .simpleUnit, container := some (.ofNat 3) } none] }
    default ⟨.ofNat, 7⟩

/-- A site directory whose list of libraries names the directory itself, twice, and one that is not
stored. -/
def knottedDirectory : Concept :=
  ({ id := .ofNat 2, conceptType := .siteDirectory } : Concept).setProperty
    Property.siteReferenceDataLibrary (.refList [.ofNat 2, .ofNat 7, .ofNat 2])

/-- A view in memory that shows one concept in the site directory. -/
def viewOf (c : Concept) : View := ⟨({} : Contents).put .siteDirectory c, default, true, false⟩

/-- The same on tables. -/
def tablesOf (c : Concept) : Tables.View :=
  ⟨({} : Tables.Contents).put .lossless .siteDirectory c, .lossless, default, true⟩

theorem find_tablesOf {c : Concept} (legible : c.Legible) (id : ConceptId) :
    (tablesOf c).find .siteDirectory id = .ok (if id = c.id then some c else none) := by
  show (SortedMap.find? (SortedMap.insert _ _ _) _).mapM _ = _
  rw [SortedMap.find?_insert]
  by_cases here : id = c.id
  · subst here
    rw [if_pos rfl, if_pos rfl]
    exact Tables.mapM_some_ok (Tables.decodeConcept_encodeConcept Tables.TextCodec.lossless_exact legible)
  · have apart : Tables.keyOf .siteDirectory id ≠ Tables.keyOf .siteDirectory c.id := by
      rw [Tables.keyOf, Tables.keyOf, ne_eq, Tables.ConceptKey.mk.injEq]
      exact fun same => here (Uuid.text_embeds.eq_iff.mp same.2)
    rw [if_neg apart, if_neg here]
    rfl

/-- The library goes with its units, after them, and the name of the first unit goes before that. The
knotted directory would go once. -/
theorem deletion_exact_shelving :
    (∀ v ∈ [founding, shelving], v.policy.registry = Registry.standard) ∧
    Registry.standard.hooksFor .siteReferenceDataLibrary = [] ∧
    (∃ outcome former, (({} : Policy).submit (deleting (.ofNat 3) .siteReferenceDataLibrary) default
        ⟨.ofNat, 7⟩ (Database.after [founding, shelving])).1.result = .ok outcome ∧
      outcome.removed = [.ofNat 5, .ofNat 4, .ofNat 6, .ofNat 3] ∧
      (Database.after [founding, shelving]).contents.Bereft
        (({} : Policy).submit (deleting (.ofNat 3) .siteReferenceDataLibrary) default ⟨.ofNat, 7⟩
          (Database.after [founding, shelving])).2.contents .siteDirectory former outcome) ∧
    (∃ order, subtree (viewOf knottedDirectory) .siteDirectory knottedDirectory = .ok order ∧
      Collected ((viewOf knottedDirectory).contents.find? .siteDirectory) (.ofNat 2) order ∧
      order = [(.ofNat 2, .siteDirectory)]) ∧
    ∃ order f, subtree (tablesOf knottedDirectory) .siteDirectory knottedDirectory = .ok order ∧
      Collected f (.ofNat 2) order := by
  have standard : ∀ v ∈ [founding, shelving], v.policy.registry = Registry.standard :=
    founding_standard rfl
  have unhooked : Registry.standard.hooksFor .siteReferenceDataLibrary = [] := rfl
  have answered : (({} : Policy).submit (deleting (.ofNat 3) .siteReferenceDataLibrary) default
      ⟨.ofNat, 7⟩ (Database.after [founding, shelving])).1.result.toOption.map (·.removed) =
        some [.ofNat 5, .ofNat 4, .ofNat 6, .ofNat 3] := by
    decide +kernel
  obtain ⟨outcome, committed, removed⟩ := Option.map_eq_some_iff.mp answered
  have committed := ok_of_toOption committed
  obtain ⟨former, -, -, bereft⟩ := deletion_exact.1 [founding, shelving] standard {}
    (deleting (.ofNat 3) .siteReferenceDataLibrary) default ⟨.ofNat, 7⟩ (.ofNat 3)
    .siteReferenceDataLibrary outcome rfl unhooked committed
  have empty : ({} : Contents).Keyed := fun _ _ found => nomatch found
  obtain ⟨order, run, collected, -⟩ := deletion_exact.2.1 (viewOf knottedDirectory) .siteDirectory
    knottedDirectory empty.put (by decide +kernel)
  have listed : subtree (viewOf knottedDirectory) .siteDirectory knottedDirectory =
      .ok [(.ofNat 2, .siteDirectory)] := by
    decide +kernel
  have legible : knottedDirectory.Legible := by
    refine .setProperty (fun name t found => ?_) nofun
    cases found
  obtain ⟨order', run', collected', -⟩ := deletion_exact.2.2 (tablesOf knottedDirectory) .siteDirectory _
    knottedDirectory (find_tablesOf legible) (if_pos rfl)
  exact ⟨standard, unhooked, ⟨outcome, former, committed, removed, bereft⟩,
    ⟨order, run, collected, Except.ok.inj (run.symm.trans listed)⟩, order', _, run', collected'⟩

end Memory

end ConceptLedger
