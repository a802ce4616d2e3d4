import ConceptLedger.Proofs.Containment.Kept
import ConceptLedger.Proofs.Containment.Walk
import ConceptLedger.Proofs.Store.History

/-!
The integrity of containment. Under the standard registry every operation leads from forests to
forests, in its own partition and in all others, so that after every history each partition is a
forest.
-/

namespace ConceptLedger

namespace Batch

open Forest

/-- Every partition of a draft is a forest. -/
def Draft.Forested (d : Draft) : Prop := ∀ p, Forest (d.find? p)

variable {env : Setting} {p : Partition} {d d' : Draft}

theorem find?_put_same (d : Draft) (p : Partition) (c : Concept) (existed : Bool) :
    (d.put p c existed).find? p = Forest.place (d.find? p) c := by
  funext id
  simp [Draft.find?_put, Forest.place]

theorem complete_stamp {c : Concept} {r : UInt64} (complete : c.Complete) :
    ({ c with revisionNumber := r } : Concept).Complete := ⟨complete.shape, complete.lists⟩

/-- A concept that is kept by a hook can stand in for one that could stand in. -/
theorem standsFor_of_kept {former c c' : Concept} {r : UInt64} (stands : c.StandsFor former)
    (kept : c.Kept c') : ({ c' with revisionNumber := r } : Concept).StandsFor former := by
  obtain ⟨id, type, -, container, -⟩ := Concept.bare_eq_iff.mp kept.bare
  have types : c.conceptType = former.conceptType := congrArg Outline.conceptType stands.outline
  refine ⟨id.trans stands.id, ?_, fun q member x => ?_, kept.shape stands.complete.shape,
    fun q member => ?_⟩
  · exact (Concept.outline_eq type container).trans stands.outline
  · rw [← types] at member
    rw [← stands.members q (types ▸ member)]
    exact iff_of_eq (congrArg (x ∈ ·) (Concept.members_congr (kept.lists q member)))
  · have member : q ∈ c.conceptType.containment := type ▸ member
    have same : ({ c' with revisionNumber := r } : Concept).property? q.name = c.property? q.name :=
      kept.lists q member
    rw [same]
    exact stands.complete.lists q member

theorem standsFor_self {c : Concept} (complete : c.Complete) : c.StandsFor c :=
  ⟨rfl, rfl, fun _ _ _ => Iff.rfl, complete⟩

/-- An update with the stored containment lists can stand in for the stored state. -/
theorem standsFor_of_stored {former c c₁ : Concept} (complete : former.Complete)
    (id : c.id = former.id) (type : former.conceptType = c.conceptType)
    (container : former.container = c.container) (shape : c.checkShape = .ok ())
    (children : Concept.withStoredChildren former c = .ok c₁) : c₁.StandsFor former := by
  obtain ⟨bare, others, lists⟩ := Concept.withStoredChildren_ok children
  obtain ⟨id', type', -, container', -⟩ := Concept.bare_eq_iff.mp bare
  obtain ⟨shaped, references⟩ := Concept.checkShape_ok_iff.mp shape
  obtain ⟨shaped', -⟩ := Concept.checkShape_ok_iff.mp complete.shape
  refine ⟨id'.trans id, ?_, fun q member x => ?_, ?_, fun q member => ?_⟩
  · exact Concept.outline_eq (type'.trans type.symm) (container'.trans container.symm)
  · rcases lists q (type ▸ member) with ⟨-, stored⟩ | ⟨given, -, same⟩
    · rw [Concept.members_congr stored]
    · rw [Concept.members_congr given]
      exact same x
  · refine Concept.checkShape_ok_iff.mpr ⟨fun q member => ?_, fun a member => ?_⟩
    · rw [type'] at member
      rcases lists q member with ⟨-, stored⟩ | ⟨given, -, -⟩
      · rw [stored]
        exact shaped' q (type ▸ member)
      · rw [given]
        exact shaped q member
    · rw [type'] at member
      rw [others a.name fun q inside => (ConceptType.association_ne_containment member inside).symm]
      exact references a member
  · rw [type'] at member
    rcases lists q member with ⟨-, stored⟩ | ⟨given, present, -⟩
    · rw [stored]
      exact complete.lists q (type ▸ member)
    · rw [given]
      exact Option.isSome_iff_ne_none.mpr present

/-- Storing a state that can stand in for the stored one. -/
theorem forest_changed {former c : Concept} {id : ConceptId} (forest : Forest (d.find? p))
    (stored : d.find? p id = some former) (stands : c.StandsFor former) :
    Forest (((d.allot p).put p c true).find? p) := by
  rw [find?_put_same, find?_allot_eq]
  exact forest.replaced stored stands

theorem UpdateEffect.forest {c : Concept} {cascades : List Cascade}
    (standard : env.registry = Registry.standard) (forest : Forest (d.find? p))
    (effect : UpdateEffect env p d c cascades d') : Forest (d'.find? p) := by
  cases effect with
  | skipped => exact forest
  | unchanged => exact forest
  | stored request =>
    have stands := standsFor_of_stored (forest.complete _ _ request.stored)
      (forest.keyed _ _ request.stored).symm request.sameType request.sameContainer request.shape
      request.children
    exact forest_changed forest request.stored
      (standsFor_of_kept stands (request.hooked.kept standard))

/-- A new concept as the hooks leave it: with the same outline, complete and without children. -/
theorem CreateRequest.child {c c' : Concept} {container : Option Concept} {before : HookOutcome}
    (standard : env.registry = Registry.standard)
    (request : CreateRequest env p d c container c' before) :
    c'.id = c.id ∧ c'.outline = c.outline ∧ c'.Complete ∧
      ∀ q ∈ c'.conceptType.containment, c'.members q = [] := by
  have kept := request.hooked.kept standard
  obtain ⟨id, type, -, held, -⟩ := Concept.bare_eq_iff.mp kept.bare
  rw [Concept.withoutChildren_conceptType] at type
  have lists : ∀ q ∈ c'.conceptType.containment,
      c'.property? q.name = some (Concept.emptyList q) := by
    intro q member
    rw [type] at member
    rw [kept.lists q (by rwa [Concept.withoutChildren_conceptType])]
    exact Concept.property?_withoutChildren member
  have shaped : c.withoutChildren.checkShape = .ok () := by
    refine Concept.checkShape_ok_iff.mpr ⟨fun q member => ?_, fun a member => ?_⟩
    · rw [Concept.withoutChildren_conceptType] at member
      rw [Concept.property?_withoutChildren member]
      unfold Concept.emptyList
      cases ordered : q.ordered <;> simp [Concept.containmentComplaint?, ordered]
    · rw [Concept.withoutChildren_conceptType] at member
      rw [Concept.property?_withoutChildren_other fun q inside =>
        (ConceptType.association_ne_containment member inside).symm]
      exact (Concept.checkShape_ok_iff.mp request.shape).2 a member
  refine ⟨id.trans c.withoutChildren_id,
    Concept.outline_eq type (held.trans c.withoutChildren_container),
    ⟨kept.shape shaped, fun q member => by rw [lists q member]; rfl⟩, fun q member => ?_⟩
  unfold Concept.members Concept.entries
  rw [lists q member, Concept.emptyList]
  cases q.ordered <;> rfl

/-- A container with a child entered into its list for the child's type. -/
theorem attach_complete {parent child extended : Concept} {orderKey : Option Int64}
    (complete : parent.Complete) (run : parent.attach child orderKey = .ok extended) :
    extended.bare = parent.bare ∧ extended.Complete ∧
      ∃ q ∈ parent.conceptType.containment, q.target = child.conceptType ∧
        ∀ q' ∈ parent.conceptType.containment, ∀ x,
          x ∈ extended.members q' ↔ x ∈ parent.members q' ∨ q' = q ∧ x = child.id := by
  obtain ⟨q, declared, target, value, list, rfl⟩ := Concept.attach_ok run
  obtain ⟨shaped, references⟩ := Concept.checkShape_ok_iff.mp complete.shape
  obtain ⟨kind, members⟩ := Concept.extendedList_ok (shaped q declared) list
  refine ⟨rfl, ⟨Concept.checkShape_ok_iff.mpr ⟨fun q' member => ?_, fun a member => ?_⟩,
    fun q' member => ?_⟩, q, declared, target, fun q' member x => ?_⟩
  · rw [Concept.property?_setProperty]
    split
    · rename_i same
      obtain rfl := Concept.containment_eq_of_name (t := parent.conceptType) member declared same
      exact kind
    · exact shaped q' member
  · rw [Concept.property?_setProperty_ne _ _ (ConceptType.association_ne_containment member declared)]
    exact references a member
  · rw [Concept.property?_setProperty]
    split
    · rfl
    · exact complete.lists q' member
  · by_cases same : q' = q
    · subst same
      rw [members]
      simp
    · have apart : q'.name ≠ q.name := fun names =>
        same (Concept.containment_eq_of_name member declared names)
      rw [Concept.members_congr (Concept.property?_setProperty_ne _ _ apart)]
      simp [same]

/-- A new concept is stored and entered into its container. -/
theorem CreateRequest.forest {c c' : Concept} {container container' : Option Concept}
    {before : HookOutcome} {orderKey : Option Int64} (standard : env.registry = Registry.standard)
    (forest : Forest (d.find? p)) (request : CreateRequest env p d c container c' before)
    (absent : d.find? p c'.id = none)
    (entered : Entered p ((d.allot p).put p { c' with revisionNumber := d.revision p } false)
      (d.revision p) { c' with revisionNumber := d.revision p } orderKey container container' d') :
    Forest (d'.find? p) := by
  obtain ⟨id, outline, complete, empty⟩ := request.child standard
  have type : c'.conceptType = c.conceptType := congrArg Outline.conceptType outline
  have held : c'.container = c.container := congrArg Outline.container outline
  have housed := request.housed
  have stamped := complete_stamp (r := d.revision p) complete
  cases entered with
  | root =>
    obtain ⟨root, alone⟩ := housed
    rw [find?_put_same, find?_allot_eq]
    exact forest.added (c := { c' with revisionNumber := d.revision p }) absent
      (show c'.conceptType.isRoot = true from type ▸ root) (held.trans alone) empty stamped
  | @under parent extended attached _ =>
    obtain ⟨inner, ⟨y, named, there⟩, -⟩ := housed
    obtain ⟨bare, grown, q, declared, target, members⟩ :=
      attach_complete (forest.complete y parent there) attached
    obtain ⟨sameId, sameType, -, sameContainer, -⟩ := Concept.bare_eq_iff.mp bare
    rw [find?_put_same, find?_put_same, find?_allot_eq]
    exact forest.entered (c := { c' with revisionNumber := d.revision p }) absent
      (show c'.conceptType.isRoot = false from type ▸ inner) (held.trans named) there declared target
      empty stamped sameId (Concept.outline_eq sameType sameContainer) members
      (complete_stamp grown)

theorem CreateEffect.forest {c : Concept} {orderKey : Option Int64} {cascades : List Cascade}
    (standard : env.registry = Registry.standard) (forest : Forest (d.find? p))
    (effect : CreateEffect env p d c orderKey cascades d') : Forest (d'.find? p) := by
  cases effect with
  | skipped => exact forest
  | stored request _ _ absent entered _ => exact request.forest standard forest absent entered

/-- Removing what a subtree lists cuts a branch off. -/
theorem Removed.cut {former : Concept} {order : List (ConceptId × ConceptType)}
    (forest : Forest (d.find? p)) (stored : d.find? p former.id = some former)
    (listed : subtree (d.allot p).view p former = .ok order) (run : Removed p (d.allot p) order d') :
    d'.find? p = Forest.cut (d.find? p) former.id := by
  have allotted : (d.allot p).view.contents.find? p = d.find? p := find?_allot_eq d p p
  obtain ⟨order', listed', members⟩ := subtree_ok (v := (d.allot p).view) (p := p) (c := former)
    (by rwa [allotted]) (by rwa [allotted])
  cases listed.symm.trans listed'
  rw [allotted] at members
  funext id
  rw [run.find?, Forest.cut, Draft.find?_allot]
  by_cases inside : id ∈ order.map (·.1)
  · rw [if_pos ⟨rfl, inside⟩, if_pos ((members id).mp inside)]
  · rw [if_neg fun both => inside both.2, if_neg fun within => inside ((members id).mpr within)]

/-- A container without one child can go without its entry in the lists. -/
theorem detach_complete {parent : Concept} (complete : parent.Complete) (child : ConceptId) :
    (parent.detach child).Complete := by
  obtain ⟨shaped, references⟩ := Concept.checkShape_ok_iff.mp complete.shape
  refine ⟨Concept.checkShape_ok_iff.mpr ⟨fun q member => ?_, fun a member => ?_⟩, fun q member => ?_⟩
  · rw [Concept.detach_conceptType] at member
    have before := shaped q member
    rw [Concept.property?_detach member]
    cases held : parent.property? q.name with
    | none => rfl
    | some value =>
      rw [held] at before
      cases value <;> exact before
  · rw [Concept.detach_conceptType] at member
    rw [Concept.property?_detach_other fun q inside =>
      (ConceptType.association_ne_containment member inside).symm]
    exact references a member
  · rw [Concept.detach_conceptType] at member
    rw [Concept.property?_detach member, Option.isSome_map]
    exact complete.lists q member

/-- What a deletion leaves behind: the branch is gone, and the container of its top, if it has one,
is outside of the branch and without the child. -/
inductive CutOff (f : ConceptId → Option Concept) (top : Concept) (r : UInt64) :
    (ConceptId → Option Concept) → Prop
  | root (alone : top.container = none) : CutOff f top r (Forest.cut f top.id)
  | under {parent : Concept} (container : top.container = some parent.id)
      (there : f parent.id = some parent)
      (outside : ¬ Outline.Within (outlines f) top.id parent.id) :
      CutOff f top r
        (Forest.place (Forest.cut f top.id) { parent.detach top.id with revisionNumber := r })

theorem Left.cutOff {former : Concept} {container container' : Option Concept} {d₁ : Draft}
    {r : UInt64} (forest : Forest (d.find? p)) (stored : d.find? p former.id = some former)
    (within : container = former.container.bind (d.find? p))
    (cut : d₁.find? p = Forest.cut (d.find? p) former.id)
    (run : Left p d₁ r former.id container container' d') :
    CutOff (d.find? p) former r (d'.find? p) := by
  cases run with
  | root =>
    rw [cut]
    refine .root ?_
    cases named : former.container with
    | none => rfl
    | some y =>
      obtain ⟨parent, _, there, -⟩ := forest.container_stored stored named
      rw [named] at within
      exact nomatch within.trans there
  | @under parent present =>
    obtain ⟨y, named, there⟩ := Option.bind_eq_some_iff.mp within.symm
    obtain rfl := forest.keyed _ _ there
    rw [find?_put_same, cut]
    refine .under named there ?_
    obtain ⟨c, found⟩ := Option.isSome_iff_exists.mp present
    rw [cut] at found
    exact (cut_eq_some_iff.mp found).1

theorem DeleteEffect.forest {id : ConceptId} {t : ConceptType} {cascades : List Cascade}
    (standard : env.registry = Registry.standard) (forest : Forest (d.find? p))
    (effect : DeleteEffect env p d id t cascades d') : Forest (d'.find? p) := by
  cases effect with
  | skipped => exact forest
  | kept => exact forest
  | marked request =>
    have former := forest.complete _ _ request.stored
    exact forest_changed forest request.stored
      (standsFor_of_kept (standsFor_self former) (request.hooked.kept standard))
  | @removed former _ _ container _ _ _ order d₁ _ request _ _ listed removed left _ =>
    obtain rfl := forest.keyed _ _ request.stored
    have cut := left.cutOff forest request.stored request.within
      (removed.cut forest request.stored listed)
    generalize d'.find? p = f at cut
    cases cut with
    | root alone => exact forest.cut_root request.stored alone
    | @under parent named there outside =>
      exact forest.cut_under request.stored named there outside (parent.detach_id former.id)
        (Concept.outline_eq (parent.detach_conceptType former.id)
          (parent.detach_container former.id))
        (fun q member x => Concept.mem_members_detach member)
        (complete_stamp (detach_complete (forest.complete _ _ there) former.id))

/-- Every operation leads from forests to forests. -/
theorem Effect.forested {operation : Operation} {cascades : List Cascade}
    (standard : env.registry = Registry.standard) (forests : d.Forested)
    (effect : Effect env p d operation cascades d') : d'.Forested := by
  intro q
  by_cases same : q = p
  · subst same
    cases effect with
    | create effect => exact effect.forest standard (forests q)
    | update effect => exact effect.forest standard (forests q)
    | delete effect => exact effect.forest standard (forests q)
  · rw [effect.elsewhere same]
    exact forests q

end Batch

namespace Memory

/-- Every partition of the contents is a forest. -/
def Contents.Forested (s : Contents) : Prop := ∀ p, Forest (s.find? p)

theorem Committed.forested {policy : Policy} {request : BatchRequest} {before after : Contents}
    {outcome : BatchOutcome} (standard : policy.registry = Registry.standard)
    (forests : before.Forested) (committed : Committed policy request before after outcome) :
    after.Forested := by
  obtain ⟨v, ids, s, rfl, rfl, run⟩ := committed.run
  obtain ⟨_, s₁, applied, finished⟩ := Step.bind_eq_ok_iff.mp run
  have forests₁ : s₁.draft.Forested :=
    Batch.applyAll_keeps (I := fun d _ => d.Forested)
      (fun _ _ _ _ _ _ before effect => effect.forested standard before)
      (fun _ _ _ before => before) (show (Batch.State.draft { view := v, ids }).Forested from forests)
      applied
  obtain ⟨records, contents, -, -⟩ := Batch.finish_ok finished
  intro p
  rw [contents]
  exact forests₁ p

theorem forested_after (visits : List Visit)
    (standard : ∀ v ∈ visits, v.policy.registry = Registry.standard) :
    (Database.after visits).contents.Forested :=
  after_keeps (A := fun policy => policy.registry = Registry.standard)
    (fun _ => Forest.empty)
    (fun _ _ _ _ _ standard before committed => committed.forested standard before) visits standard

/-- The concept that is reached by following containers a number of times. -/
def Contents.ancestor? (s : Contents) (p : Partition) : Nat → ConceptId → Option Concept
  | 0, x => s.find? p x
  | n + 1, x => ((s.find? p x).bind (·.container)).bind (s.ancestor? p n)

/-- The containment of a partition is intact: containers and lists tell the same, what is listed
is stored, containers lead to roots, and the lists are all there. -/
structure Contents.Intact (s : Contents) (p : Partition) : Prop where
  identified : ∀ x c, s.find? p x = some c → c.id = x
  root : ∀ x c, s.find? p x = some c → c.conceptType.isRoot = true → c.container = none
  inner : ∀ x c, s.find? p x = some c → c.conceptType.isRoot = false →
    ∃ y parent, c.container = some y ∧ s.find? p y = some parent ∧
      (parent.conceptType.containmentFor? c.conceptType).isSome = true
  listed : ∀ x c y parent, s.find? p x = some c → s.find? p y = some parent →
    ((∃ q ∈ parent.conceptType.containment, x ∈ parent.members q) ↔ c.container = some y)
  target : ∀ x c y parent, s.find? p x = some c → s.find? p y = some parent →
    ∀ q ∈ parent.conceptType.containment, x ∈ parent.members q → q.target = c.conceptType
  closed : ∀ y parent, s.find? p y = some parent → ∀ q ∈ parent.conceptType.containment,
    ∀ x ∈ parent.members q, (s.find? p x).isSome = true
  rooted : ∀ x c, s.find? p x = some c →
    ∃ n top, s.ancestor? p n x = some top ∧ top.conceptType.isRoot = true
  shaped : ∀ x c, s.find? p x = some c → c.checkShape = .ok ()
  held : ∀ x c, s.find? p x = some c → ∀ q ∈ c.conceptType.containment, c.HoldsList q

theorem ancestor?_of_grounded {s : Contents} {p : Partition} {x : ConceptId}
    (grounded : Outline.Grounded (Forest.outlines (s.find? p)) x) :
    ∃ n top, s.ancestor? p n x = some top ∧ top.conceptType.isRoot = true := by
  induction grounded with
  | root stored root =>
    obtain ⟨c, found, rfl⟩ := Forest.outlines_eq_some_iff.mp stored
    exact ⟨0, c, found, root⟩
  | under stored container _ ih =>
    obtain ⟨c, found, rfl⟩ := Forest.outlines_eq_some_iff.mp stored
    obtain ⟨n, top, reached, root⟩ := ih
    have container : c.container = some _ := container
    refine ⟨n + 1, top, ?_, root⟩
    rw [Contents.ancestor?, found, Option.bind_some, container, Option.bind_some]
    exact reached

theorem Contents.Intact.of_forest {s : Contents} {p : Partition} (forest : Forest (s.find? p)) :
    s.Intact p where
  identified := forest.keyed
  root x c stored kind :=
    forest.ordered.root x c.outline (Forest.outlines_eq_some_iff.mpr ⟨c, stored, rfl⟩) kind
  inner x c stored kind := by
    obtain ⟨y, v, container, there, fits⟩ := forest.ordered.housed x c.outline
      (Forest.outlines_eq_some_iff.mpr ⟨c, stored, rfl⟩) kind
    obtain ⟨parent, found, rfl⟩ := Forest.outlines_eq_some_iff.mp there
    exact ⟨y, parent, container, found, fits⟩
  listed x c y parent stored there := by
    constructor
    · rintro ⟨q, declared, member⟩
      obtain ⟨c', stored', outline⟩ :=
        Forest.outlines_eq_some_iff.mp ((forest.listed y parent there q declared x).mp member)
      cases stored.symm.trans stored'
      exact congrArg Outline.container outline
    · intro container
      obtain ⟨parent', q, there', fits⟩ := forest.container_stored stored container
      cases there.symm.trans there'
      obtain ⟨declared, target⟩ := ConceptType.containmentFor?_eq_some_iff.mp fits
      refine ⟨q, declared, (forest.listed y parent there q declared x).mpr ?_⟩
      refine Forest.outlines_eq_some_iff.mpr ⟨c, stored, ?_⟩
      rw [Concept.outline, container, target]
  target x c y parent stored there q declared member := by
    obtain ⟨c', stored', outline⟩ :=
      Forest.outlines_eq_some_iff.mp ((forest.listed y parent there q declared x).mp member)
    cases stored.symm.trans stored'
    exact (congrArg Outline.conceptType outline).symm
  closed y parent there q declared x member := by
    obtain ⟨c, stored, -⟩ :=
      Forest.outlines_eq_some_iff.mp ((forest.listed y parent there q declared x).mp member)
    rw [stored]
    rfl
  rooted x c stored := ancestor?_of_grounded
    (forest.ordered.grounded x c.outline (Forest.outlines_eq_some_iff.mpr ⟨c, stored, rfl⟩))
  shaped x c stored := (forest.complete x c stored).shape
  held x c stored q member := (forest.complete x c stored).holdsList member

/-- After every history under the standard registry, containment is intact in every partition. -/
theorem intact_after (visits : List Visit)
    (standard : ∀ v ∈ visits, v.policy.registry = Registry.standard) (p : Partition) :
    (Database.after visits).contents.Intact p :=
  .of_forest (forested_after visits standard p)

/-- Containment is intact in a site directory with a model of two iterations, and in the partition of the
model. A setup there is listed by the model's setup, and two steps lead from it to the site directory. -/
theorem intact_after_iterating :
    (∀ v ∈ [founding, iterating], v.policy.registry = Registry.standard) ∧
    (Database.after [founding, iterating]).contents.Intact .siteDirectory ∧
    (Database.after [founding, iterating]).contents.Intact (.model (.ofNat 6)) ∧
    (∃ parent, (Database.after [founding, iterating]).contents.find? .siteDirectory (.ofNat 3) =
        some parent ∧ parent.childIds = [.ofNat 4, .ofNat 5]) ∧
    ((Database.after [founding, iterating]).contents.ancestor? .siteDirectory 2 (.ofNat 4)).map (·.id) =
      some (.ofNat 2) ∧
    ∃ root, (Database.after [founding, iterating]).contents.find? (.model (.ofNat 6)) (.ofNat 6) =
        some root ∧ root.childIds = [.ofNat 7, .ofNat 8] := by
  have standard : ∀ v ∈ [founding, iterating], v.policy.registry = Registry.standard :=
    founding_standard rfl
  exact ⟨standard, intact_after [founding, iterating] standard .siteDirectory,
    intact_after [founding, iterating] standard (.model (.ofNat 6)), stored_of_any (by decide +kernel),
    by decide +kernel, stored_of_any (by decide +kernel)⟩

end Memory

end ConceptLedger
