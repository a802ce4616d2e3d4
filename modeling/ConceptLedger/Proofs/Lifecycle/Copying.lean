import ConceptLedger.Proofs.Concept.Lists
import ConceptLedger.Proofs.Hook.Depth
import ConceptLedger.Proofs.Lifecycle.Counterparts

/-!
The copies that a new iteration is to be filled with. They are planned by a walk through the contents of
the iteration before, which gives every concept on the way a new identifier and names the copy of its
container as the container of its own copy. Where no list names a concept twice, the walk meets every
concept once, so that the plan assigns the new identifiers one to one.
-/

namespace ConceptLedger

open Forest Outline

namespace Concept

variable {f : ConceptId → Option Concept} {c : Concept} {y : ConceptId} {q : Containment}

theorem listing_fst (c : Concept) : c.listing.map (·.1) = c.childIds := List.map_flatMap

/-- A concept is listed by its container. -/
theorem mem_listing (forest : Forest f) {x : ConceptId} {child : Concept} (stored : f x = some child)
    (container : child.container = some y) (there : f y = some c) : ∃ key, (x, key) ∈ c.listing := by
  obtain ⟨parent, q, there', fits⟩ := forest.container_stored stored container
  cases there.symm.trans there'
  obtain ⟨declared, target⟩ := ConceptType.containmentFor?_eq_some_iff.mp fits
  have outline : outlines f x = some ⟨q.target, some y⟩ := by
    rw [outlines, stored, target, ← container]
    rfl
  obtain ⟨⟨_, key⟩, inside, rfl⟩ := List.mem_map.mp ((forest.listed y c there q declared x).mpr outline)
  exact ⟨key, List.mem_flatMap.mpr ⟨q, declared, inside⟩⟩

/-- No child is listed twice if none is within a single list. -/
theorem childIds_nodup (forest : Forest f) (stored : f y = some c)
    (once : ∀ q ∈ c.conceptType.containment, (c.members q).Nodup) : c.childIds.Nodup := by
  refine List.nodup_flatMap.mpr ⟨once, ?_⟩
  refine (List.pairwise_map.mp c.conceptType.containment_targets_nodup).imp_of_mem ?_
  intro q q' declared declared' apart x first second
  have named := (forest.listed y c stored q declared x).mp first
  have named' := (forest.listed y c stored q' declared' x).mp second
  exact apart (congrArg Outline.conceptType (Option.some.inj (named.symm.trans named')))

/-- The entries of one list are those of its type. -/
theorem listing_filter (forest : Forest f) (stored : f y = some c)
    (declared : q ∈ c.conceptType.containment) :
    c.listing.filter (fun entry => (f entry.1).map Concept.conceptType = some q.target) = c.entries q := by
  have kinds : ∀ q' ∈ c.conceptType.containment, ∀ entry ∈ c.entries q',
      (f entry.1).map Concept.conceptType = some q'.target := by
    intro q' declared' entry listed
    obtain ⟨child, found, kind, -⟩ := of_mem_entries forest stored declared' listed
    rw [found, ← kind]
    rfl
  have nodup := c.conceptType.containment_targets_nodup
  unfold listing
  generalize c.conceptType.containment = l at kinds declared nodup
  induction l with
  | nil => cases declared
  | cons q' rest ih =>
    obtain ⟨apart, tail⟩ := List.nodup_cons.mp nodup
    rw [List.flatMap_cons, List.filter_append]
    rcases List.mem_cons.mp declared with rfl | later
    · have others : (rest.flatMap c.entries).filter
          (fun entry => (f entry.1).map Concept.conceptType = some q.target) = [] := by
        refine List.filter_eq_nil_iff.mpr fun entry listed same => ?_
        obtain ⟨q', inside, listed⟩ := List.mem_flatMap.mp listed
        have kind := kinds q' (List.mem_cons_of_mem _ inside) entry listed
        rw [kind] at same
        exact apart (List.mem_map.mpr ⟨q', inside, Option.some.inj (of_decide_eq_true same)⟩)
      rw [others, List.append_nil, List.filter_eq_self]
      exact fun entry listed => decide_eq_true (kinds q List.mem_cons_self entry listed)
    · have none : (c.entries q').filter
          (fun entry => (f entry.1).map Concept.conceptType = some q.target) = [] := by
        refine List.filter_eq_nil_iff.mpr fun entry listed same => ?_
        rw [kinds q' List.mem_cons_self entry listed] at same
        exact apart (List.mem_map.mpr ⟨q, later, (Option.some.inj (of_decide_eq_true same)).symm⟩)
      rw [none, List.nil_append]
      exact ih (fun q inside => kinds q (List.mem_cons_of_mem _ inside)) later tail

end Concept

/-- Lists in order: nothing within a concept lists a child twice, and order keys ascend strictly. -/
structure Tidy (f : ConceptId → Option Concept) (top : ConceptId) : Prop where
  once : ∀ x c, Within (outlines f) top x → f x = some c → ∀ q ∈ c.conceptType.containment,
    (c.members q).Nodup
  ascending : ∀ x c, Within (outlines f) top x → f x = some c → ∀ q ∈ c.conceptType.containment,
    (c.keys q).Pairwise (· < ·)

namespace IterationSetup

open Lifecycle Step

/-- A copy that is planned: of which concept, with the order key under which that is listed, and with the
new identifiers of the copy and of its container. -/
structure Copy where
  source : Concept
  key : Option Int64
  id : ConceptId
  parent : ConceptId

namespace Copy

/-- The entry by which a concept is listed that is copied. -/
def entry (i : Copy) : ConceptId × Option Int64 := (i.source.id, i.key)

/-- The concept that is to be created. -/
def payload (i : Copy) : Concept := copyOf i.source i.id i.parent

end Copy

/-- The copies of all that is listed, each before those of its own contents. -/
inductive Plan (f : ConceptId → Option Concept) :
    List (ConceptId × Option Int64) → ConceptId → List Copy → Prop
  | done {parent : ConceptId} : Plan f [] parent []
  | next {entry : ConceptId × Option Int64} {rest : List (ConceptId × Option Int64)} {child : Concept}
      {id parent : ConceptId} {inside later : List Copy} (found : f entry.1 = some child)
      (contents : Plan f child.listing id inside) (others : Plan f rest parent later) :
      Plan f (entry :: rest) parent (⟨child, entry.2, id, parent⟩ :: (inside ++ later))

/-- A fold that adds the copies of one entry after the other to what was there before follows a plan. -/
theorem foldlM_plan {f : ConceptId → Option Concept} {p : Partition} {parent : ConceptId}
    {step : List Cascade → ConceptId × Option Int64 → Step HookState (List Cascade)}
    {entries : List (ConceptId × Option Int64)} {b r : List Cascade} {s t : HookState}
    (copies : ∀ entry ∈ entries, ∀ done r s t, step done entry s = (.ok r, t) →
      ∃ child id inside, f entry.1 = some child ∧ Plan f child.listing id inside ∧
        r = done ++ creating p (copyOf child id parent) entry.2 ::
          inside.map fun i => creating p i.payload i.key)
    (run : entries.foldlM step b s = (.ok r, t)) :
    ∃ all, Plan f entries parent all ∧ r = b ++ all.map fun i => creating p i.payload i.key := by
  induction entries generalizing b s with
  | nil =>
    obtain ⟨rfl, -⟩ := pure_eq_ok_iff.mp run
    exact ⟨[], .done, (List.append_nil _).symm⟩
  | cons entry rest ih =>
    rw [List.foldlM_cons] at run
    obtain ⟨_, s₁, first, later⟩ := bind_eq_ok_iff.mp run
    obtain ⟨child, id, inside, found, contents, rfl⟩ := copies entry List.mem_cons_self _ _ _ _ first
    obtain ⟨others, plan, rfl⟩ :=
      ih (fun entry member => copies entry (List.mem_cons_of_mem _ member)) later
    refine ⟨_, .next found contents plan, ?_⟩
    rw [List.map_cons, List.map_append, List.append_assoc, List.cons_append]
    rfl

/-- Copying the contents of a stored concept follows a plan, if it may go deep enough. -/
theorem copyContents_plan {setting : HookSetting} {p : Partition} {f : ConceptId → Option Concept}
    (lookup : ∀ x c, f x = some c → InModel c.conceptType → setting.lookup p x = .ok (some c))
    (forest : Forest f) {depth : Nat} {source : Concept} {y parent : ConceptId}
    {cascades : List Cascade} {s t : HookState} (stored : f y = some source)
    (inside : InModel source.conceptType) (deep : source.conceptType.height < depth)
    (run : copyContents setting p depth source parent s = (.ok cascades, t)) :
    ∃ copies, Plan f source.listing parent copies ∧
      cascades = copies.map fun i => creating p i.payload i.key := by
  induction depth generalizing source y parent cascades s t with
  | zero => exact absurd deep (Nat.not_lt_zero _)
  | succ depth ih =>
    refine foldlM_plan (b := []) (fun entry listed done r s₀ t₀ first => ?_) run
    obtain ⟨q, declared, child, found, kind, -⟩ := Concept.of_mem_listing forest stored listed
    have lower : child.conceptType.height < depth := by
      have below := ConceptType.height_target declared
      rw [kind]
      omega
    have within : InModel child.conceptType := kind ▸ inside.target declared
    obtain ⟨looked, same, first⟩ := lift_bind_eq_ok_iff.mp first
    rw [lookup entry.1 child found within] at same
    cases same
    obtain ⟨id, s₂, drawn, first⟩ := bind_eq_ok_iff.mp first
    obtain ⟨below, s₃, copied, first⟩ := bind_eq_ok_iff.mp first
    obtain ⟨rfl, rfl⟩ := pure_eq_ok_iff.mp first
    obtain ⟨inner, plan, rfl⟩ := ih found within lower copied
    exact ⟨child, id, inner, found, plan, rfl⟩

namespace Plan

variable {f : ConceptId → Option Concept} {entries : List (ConceptId × Option Int64)}
  {parent : ConceptId} {copies : List Copy}

/-- The container of a copy is the one that was given, or another copy. -/
theorem parents (plan : Plan f entries parent copies) :
    ∀ i ∈ copies, i.parent = parent ∨ ∃ j ∈ copies, i.parent = j.id := by
  induction plan with
  | done => exact fun i member => nomatch member
  | next found contents others ih ih' =>
    intro i member
    rcases List.mem_cons.mp member with rfl | member
    · exact .inl rfl
    · rcases List.mem_append.mp member with inner | later
      · rcases ih i inner with own | ⟨j, inside, same⟩
        · exact .inr ⟨_, List.mem_cons_self, own⟩
        · exact .inr ⟨j, List.mem_cons_of_mem _ (List.mem_append_left _ inside), same⟩
      · rcases ih' i later with own | ⟨j, inside, same⟩
        · exact .inl own
        · exact .inr ⟨j, List.mem_cons_of_mem _ (List.mem_append_right _ inside), same⟩

/-- What is not among the given containers contains none of the copies. -/
theorem under_none (plan : Plan f entries parent copies) {x : ConceptId} (other : x ≠ parent)
    (apart : x ∉ copies.map (·.id)) : copies.filter (·.parent = x) = [] := by
  refine List.filter_eq_nil_iff.mpr fun i member same => ?_
  have same : i.parent = x := of_decide_eq_true same
  rcases plan.parents i member with own | ⟨j, inside, own⟩
  · exact other (same.symm.trans own)
  · exact apart (List.mem_map.mpr ⟨j, inside, own.symm.trans same⟩)

theorem stored (plan : Plan f entries parent copies) (keyed : ∀ x c, f x = some c → c.id = x) :
    ∀ i ∈ copies, f i.source.id = some i.source := by
  induction plan with
  | done => exact fun i member => nomatch member
  | next found contents others ih ih' =>
    intro i member
    rcases List.mem_cons.mp member with rfl | member
    · rw [keyed _ _ found]
      exact found
    · exact (List.mem_append.mp member).elim (ih i) (ih' i)

/-- The copies under the given container are those of what is listed, in order. -/
theorem under_parent (plan : Plan f entries parent copies) (keyed : ∀ x c, f x = some c → c.id = x)
    (fresh : (parent :: copies.map (·.id)).Nodup) :
    (copies.filter (·.parent = parent)).map Copy.entry = entries := by
  induction plan with
  | done => rfl
  | @next entry rest child id parent inside later found contents others ih ih' =>
    rw [List.map_cons, List.map_append] at fresh
    have apart := (List.nodup_cons.mp fresh).1
    have inner : inside.filter (·.parent = parent) = [] :=
      contents.under_none (fun same => apart (same ▸ List.mem_cons_self))
        fun member => apart (List.mem_cons_of_mem _ (List.mem_append_left _ member))
    have outer : (parent :: later.map (·.id)).Nodup :=
      fresh.sublist (((List.sublist_append_right _ _).cons _).cons_cons _)
    rw [List.filter_cons_of_pos (by simp), List.filter_append, inner, List.nil_append, List.map_cons,
      ih' outer, Copy.entry, keyed _ _ found]

/-- The copies under another copy are those of what the concept lists that is copied. -/
theorem under_copy (plan : Plan f entries parent copies) (keyed : ∀ x c, f x = some c → c.id = x)
    (fresh : (parent :: copies.map (·.id)).Nodup) :
    ∀ i ∈ copies, (copies.filter (·.parent = i.id)).map Copy.entry = i.source.listing := by
  induction plan with
  | done => exact fun i member => nomatch member
  | @next entry rest child id parent inside later found contents others ih ih' =>
    rw [List.map_cons, List.map_append] at fresh
    obtain ⟨apart, nodup⟩ := List.nodup_cons.mp fresh
    obtain ⟨single, nodup⟩ := List.nodup_cons.mp nodup
    obtain ⟨within, outside, disjoint⟩ := List.nodup_append.mp nodup
    have inner : (id :: inside.map (·.id)).Nodup :=
      List.nodup_cons.mpr ⟨fun member => single (List.mem_append_left _ member), within⟩
    have outer : (parent :: later.map (·.id)).Nodup := List.nodup_cons.mpr
      ⟨fun member => apart (List.mem_cons_of_mem _ (List.mem_append_right _ member)), outside⟩
    intro i member
    have other : i.id ∈ id :: (inside.map (·.id) ++ later.map (·.id)) := by
      rcases List.mem_cons.mp member with rfl | member
      · exact List.mem_cons_self
      · rw [← List.map_append]
        exact List.mem_cons_of_mem _ (List.mem_map_of_mem member)
    have other : parent ≠ i.id := fun same => apart (same ▸ other)
    rw [List.filter_cons_of_neg (by simpa using other), List.filter_append, List.map_append]
    rcases List.mem_cons.mp member with rfl | member
    · rw [contents.under_parent keyed inner, others.under_none other.symm fun member =>
        single (List.mem_append_right _ member)]
      exact List.append_nil _
    · rcases List.mem_append.mp member with inner' | later'
      · have here := List.mem_map_of_mem (f := Copy.id) inner'
        rw [ih inner i inner', others.under_none other.symm fun there => disjoint _ here _ there rfl]
        exact List.append_nil _
      · have here := List.mem_map_of_mem (f := Copy.id) later'
        rw [ih' outer i later', contents.under_none
          (fun same => single (List.mem_append_right _ (same ▸ here)))
          fun there => disjoint _ there _ here rfl]
        rfl

/-- What is copied is within what is listed. -/
theorem within (plan : Plan f entries parent copies) (forest : Forest f) :
    ∀ i ∈ copies, ∃ entry ∈ entries, Within (outlines f) entry.1 i.source.id := by
  induction plan with
  | done => exact fun i member => nomatch member
  | @next entry rest child id parent inside later found contents others ih ih' =>
    intro i member
    rcases List.mem_cons.mp member with rfl | member
    · refine ⟨entry, List.mem_cons_self, ?_⟩
      rw [← forest.keyed _ _ found]
      exact .top
    · rcases List.mem_append.mp member with inner | later
      · obtain ⟨entry', listed, below⟩ := ih i inner
        obtain ⟨-, -, child', found', -, container⟩ := Concept.of_mem_listing forest found listed
        refine ⟨entry, List.mem_cons_self, Within.trans ?_ below⟩
        exact .under (outlines_eq_some_iff.mpr ⟨child', found', rfl⟩) container .top
      · obtain ⟨entry', listed, below⟩ := ih' i later
        exact ⟨entry', List.mem_cons_of_mem _ listed, below⟩

/-- What is copied is of a type on a lower level than that of the concept which lists it. -/
theorem lower (plan : Plan f entries parent copies) (forest : Forest f) {n : Nat}
    (below : ∀ entry ∈ entries, ∀ child, f entry.1 = some child → child.conceptType.height < n) :
    ∀ i ∈ copies, i.source.conceptType.height < n := by
  induction plan with
  | done => exact fun i member => nomatch member
  | @next entry rest child id parent inside later found contents others ih ih' =>
    have here := below entry List.mem_cons_self child found
    intro i member
    rcases List.mem_cons.mp member with rfl | member
    · exact here
    · rcases List.mem_append.mp member with inner | later
      · refine ih (fun entry' listed child' found' => ?_) i inner
        obtain ⟨q, declared, child'', found'', kind, -⟩ := Concept.of_mem_listing forest found listed
        cases found'.symm.trans found''
        have lower := ConceptType.height_target declared
        rw [kind]
        omega
      · exact ih' (fun entry' listed => below entry' (List.mem_cons_of_mem _ listed)) i later

end Plan

/-- A plan for all that is contained in a stored concept, with identifiers that differ. -/
structure Repeating (f : ConceptId → Option Concept) (top : Concept) (new : ConceptId)
    (copies : List Copy) : Prop where
  forest : Forest f
  stored : f top.id = some top
  plan : Plan f top.listing new copies
  fresh : (new :: copies.map (·.id)).Nodup

namespace Repeating

variable {f : ConceptId → Option Concept} {top : Concept} {new : ConceptId} {copies : List Copy}

theorem source_stored (repeating : Repeating f top new copies) :
    ∀ i ∈ copies, f i.source.id = some i.source :=
  repeating.plan.stored repeating.forest.keyed

/-- What is copied is within the concept but is not the concept itself. -/
theorem source_within (repeating : Repeating f top new copies) {i : Copy} (member : i ∈ copies) :
    Within (outlines f) top.id i.source.id ∧ i.source.id ≠ top.id := by
  obtain ⟨entry, listed, below⟩ := repeating.plan.within repeating.forest i member
  obtain ⟨-, -, child, found, -, container⟩ :=
    Concept.of_mem_listing repeating.forest repeating.stored listed
  have placed := outlines_eq_some_iff.mpr ⟨child, found, rfl⟩
  refine ⟨Within.trans (.under placed container .top) below, fun same => ?_⟩
  exact repeating.forest.ordered.container_not_within placed container (same ▸ below)

/-- The container of a copy is the copy of the container. -/
theorem container (repeating : Repeating f top new copies) {i : Copy} (member : i ∈ copies) :
    (i.parent = new ∧ i.source.container = some top.id) ∨
      ∃ j ∈ copies, i.parent = j.id ∧ i.source.container = some j.source.id := by
  have here := repeating.source_stored i member
  have contained : ∀ {parent : Concept} {x : ConceptId}, f parent.id = some parent → i.parent = x →
      (copies.filter (·.parent = x)).map Copy.entry = parent.listing →
      i.source.container = some parent.id := by
    intro parent x there own entries
    have listed : i.entry ∈ parent.listing :=
      entries ▸ List.mem_map_of_mem (List.mem_filter.mpr ⟨member, decide_eq_true own⟩)
    obtain ⟨-, -, child, found, -, container⟩ := Concept.of_mem_listing repeating.forest there listed
    cases here.symm.trans found
    exact container
  rcases repeating.plan.parents i member with own | ⟨j, inside, own⟩
  · exact .inl ⟨own, contained repeating.stored own
      (repeating.plan.under_parent repeating.forest.keyed repeating.fresh)⟩
  · exact .inr ⟨j, inside, own, contained (repeating.source_stored j inside) own
      (repeating.plan.under_copy repeating.forest.keyed repeating.fresh j inside)⟩

/-- Everything within the concept is copied. -/
theorem complete (repeating : Repeating f top new copies) {x : ConceptId}
    (within : Within (outlines f) top.id x) : x = top.id ∨ ∃ i ∈ copies, i.source.id = x := by
  induction within with
  | top => exact .inl rfl
  | @under x y u placed container inside ih =>
    obtain ⟨child, found, rfl⟩ := outlines_eq_some_iff.mp placed
    have copied : ∀ {parent : Concept} {z : ConceptId}, f y = some parent →
        (copies.filter (·.parent = z)).map Copy.entry = parent.listing →
        ∃ i ∈ copies, i.source.id = x := by
      intro parent z there entries
      obtain ⟨key, listed⟩ := Concept.mem_listing repeating.forest found container there
      rw [← entries] at listed
      obtain ⟨i, member, same⟩ := List.mem_map.mp listed
      exact ⟨i, (List.mem_filter.mp member).1, congrArg Prod.fst same⟩
    right
    rcases ih with rfl | ⟨j, member, rfl⟩
    · exact copied repeating.stored
        (repeating.plan.under_parent repeating.forest.keyed repeating.fresh)
    · exact copied (repeating.source_stored j member)
        (repeating.plan.under_copy repeating.forest.keyed repeating.fresh j member)

/-- Where lists are tidy, no concept is copied twice. -/
theorem unique (repeating : Repeating f top new copies) (tidy : Tidy f top.id) {i j : Copy}
    (first : i ∈ copies) (second : j ∈ copies) (same : i.source.id = j.source.id) : i = j := by
  obtain ⟨within, -⟩ := repeating.source_within first
  generalize here : i.source.id = x at within
  induction within generalizing i j with
  | top => exact absurd here (repeating.source_within first).2
  | @under x y u placed container inside ih =>
    have sources : i.source = j.source := by
      have stored := repeating.source_stored i first
      rw [same, repeating.source_stored j second] at stored
      exact (Option.some.inj stored).symm
    have named : i.source.container = some y := by
      rw [← here, outlines, repeating.source_stored i first] at placed
      cases placed
      exact container
    have named' : j.source.container = some y := sources ▸ named
    -- copies of one concept under one container are one, as it lists the concept once
    have one : ∀ {parent : Concept} {z : ConceptId}, f y = some parent → i.parent = z → j.parent = z →
        (copies.filter (·.parent = z)).map Copy.entry = parent.listing → i = j := by
      intro parent z there own own' entries
      have nodup := Concept.childIds_nodup repeating.forest there (tidy.once y parent inside there)
      rw [← Concept.listing_fst, ← entries, List.map_map] at nodup
      exact List.inj_on_of_nodup_map nodup (List.mem_filter.mpr ⟨first, decide_eq_true own⟩)
        (List.mem_filter.mpr ⟨second, decide_eq_true own'⟩) same
    rcases repeating.container first with ⟨own, above⟩ | ⟨k, member, own, above⟩ <;>
      rcases repeating.container second with ⟨own', above'⟩ | ⟨k', member', own', above'⟩
    · cases named.symm.trans above
      exact one repeating.stored own own'
        (repeating.plan.under_parent repeating.forest.keyed repeating.fresh)
    · cases named.symm.trans above
      exact absurd (Option.some.inj (above'.symm.trans named')) (repeating.source_within member').2
    · cases named'.symm.trans above'
      exact absurd (Option.some.inj (above.symm.trans named)) (repeating.source_within member).2
    · have at' : k.source.id = y := Option.some.inj (above.symm.trans named)
      have at'' : k'.source.id = y := Option.some.inj (above'.symm.trans named')
      obtain rfl := ih member member' (at'.trans at''.symm) at'
      exact one (at' ▸ repeating.source_stored k member) own own'
        (repeating.plan.under_copy repeating.forest.keyed repeating.fresh k member)

end Repeating

end IterationSetup

end ConceptLedger
