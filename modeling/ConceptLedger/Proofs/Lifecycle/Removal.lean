import ConceptLedger.Proofs.Batch.Cut
import ConceptLedger.Proofs.Lifecycle.Backing
import ConceptLedger.Proofs.Lifecycle.Iterations

/-!
The removal of setups of engineering models. A batch of deletions adds nothing, and what it has
taken away stays away. A setup that an operation of the batch deletes takes its model with it. One
that falls with its container does not: no rules run for what a deleted concept contains.
-/

namespace ConceptLedger

open Batch Forest

namespace Faces

variable {F F' F'' : Faces} {p q : Partition} {x id : ConceptId} {t : ConceptType} {u : Face}

/-- A later stock has kept some of the faces and has none besides them. -/
def Thinned (F F' : Faces) : Prop := ∀ q x u, F' q x = some u → F q x = some u

theorem Thinned.refl (F : Faces) : F.Thinned F := fun _ _ _ there => there

theorem Thinned.trans (first : F.Thinned F') (later : F'.Thinned F'') : F.Thinned F'' :=
  fun q x u there => first q x u (later q x u there)

theorem Thinned.of_refaced (refaced : Refaced p F F' (.delete id t)) : F.Thinned F' := by
  intro q x u there
  cases refaced with
  | same _ same => exact same ▸ there
  | removed _ _ gone rest =>
    by_cases inside : q = p ∧ Outline.Within (F.outlines p) id x
    · obtain ⟨rfl, within⟩ := inside
      cases (gone x within).symm.trans there
    · rw [← rest q x fun same within => inside ⟨same, within⟩]
      exact there

/-- What a deletion takes away is within what it deletes. -/
theorem within_of_gone (refaced : Refaced p F F' (.delete id t)) (there : F q x = some u)
    (gone : F' q x = none) :
    q = p ∧ Outline.Within (F.outlines p) id x ∧ ∃ v, F p id = some v ∧ v.conceptType = t := by
  cases refaced with
  | same _ same =>
    rw [same, there] at gone
    cases gone
  | removed top type _ rest =>
    by_contra outside
    rw [rest q x fun here within => outside ⟨here, within, _, top, type⟩, there] at gone
    cases gone

/-- Where nothing is added, all that was within a concept is gone with it. -/
theorem Thinned.gone_of_within {f f' : Stock} (thinned : f.faces.Thinned f'.faces)
    (forest' : Forest (f' q)) {top : ConceptId} (gone : f' q top = none)
    (within : Outline.Within (Forest.outlines (f q)) top x) : f' q x = none := by
  induction within with
  | top => exact gone
  | @under x y u stored container _ above =>
    by_contra kept
    obtain ⟨c, there⟩ := Option.ne_none_iff_exists'.mp kept
    obtain ⟨former, before, face⟩ := faces_eq_some_iff.mp (thinned q x _ (faces_of_stored there))
    obtain ⟨former', before', rfl⟩ := outlines_eq_some_iff.mp stored
    cases before.symm.trans before'
    have named : c.container = some y := (congrArg Face.container face).symm.trans container
    obtain ⟨parent, -, above', -⟩ := forest'.container_stored there named
    cases above.symm.trans above'

end Faces

/-- Setups of engineering models are contained in site directories only. -/
theorem EngineeringModelSetup.directory_of_containmentFor? {t : ConceptType} {q : Containment}
    (fits : t.containmentFor? .engineeringModelSetup = some q) : t = .siteDirectory := by
  cases t <;> first | rfl | cases fits

namespace Batch

open Faces Step Lifecycle

variable {env : Setting} {p q : Partition} {d d' : Draft} {e id x : ConceptId} {t : ConceptType}
  {former c c' : Concept} {container : Option Concept} {outcome : HookOutcome}
  {security : SecurityContext} {cascades : List Cascade}

/-- After the deletion of a setup the root of its model is to be deleted, if there is one. -/
theorem Hooked.closes (standard : env.registry = Registry.standard)
    (kind : c.conceptType = .engineeringModelSetup)
    (hooked : Hooked env p d security (.afterDelete former) c container c' outcome) :
    ∃ model, former.ref? Property.engineeringModelIid = some model ∧
      ((d.find? (.model model) model = none ∧ outcome.cascades = []) ∨
        outcome.cascades = [⟨some (.model model), .delete model .engineeringModel⟩]) := by
  rcases hooked.standard_cases standard with ⟨-, s, s', o, -, run, cascades, -⟩ |
    ⟨iteration, -⟩ | ⟨model, -⟩
  · obtain ⟨model, named, rest⟩ := Except.bind_ok (lift_eq_ok_iff.mp run).1
    obtain ⟨deletions, deleting, rfl⟩ := Except.map_ok rest
    obtain ⟨found, looked, rfl⟩ := Except.map_ok deleting
    refine ⟨model, EngineeringModelSetup.modelOf_ok named, ?_⟩
    rw [cascades]
    have there : d.find? (.model model) model = found := Except.ok.inj looked
    cases found with
    | none => exact .inl ⟨there, rfl⟩
    | some root => exact .inr rfl
  · cases kind.symm.trans iteration
  · exact absurd kind model

/-- The deletion of anything but an iteration setup removes it, with all that it contains, and only
the rules that run afterwards cause anything. -/
theorem DeleteEffect.felled (standard : env.registry = Registry.standard)
    (forest : Forest (d.find? p)) (other : t ≠ .iterationSetup)
    (effect : DeleteEffect env p d id t cascades d') : d'.find? p id = none ∧
    ∃ former security container c'' after, d.find? p id = some former ∧ former.conceptType = t ∧
      Hooked env p d' security (.afterDelete former) former container c'' after ∧
      cascades = after.cascades := by
  have proceeds : ∀ {former c' : Concept} {container : Option Concept} {before : HookOutcome},
      DeleteRequest env p d id t former container c' before → c' = former ∧ before = {} :=
    fun request => (request.hooked.delete_ok standard).1 (request.sameType ▸ other)
  cases effect with
  | skipped request skip =>
    obtain ⟨-, rfl⟩ := proceeds request
    cases skip
  | kept request convert | marked request convert =>
    obtain ⟨-, rfl⟩ := proceeds request
    cases convert
  | removed request _ _ listed removed left hooked =>
    obtain ⟨rfl, rfl⟩ := proceeds request
    obtain rfl := forest.keyed _ _ request.stored
    have cut := left.cutOff forest request.stored request.within
      (removed.cut forest request.stored listed)
    exact ⟨cut.gone .top, _, _, _, _, _, request.stored, request.sameType, hooked, rfl⟩

/-- What deletions cause are deletions of roots of models and of iterations. -/
theorem Caused.deletes (caused : Caused env p d d' (.delete id t) cascades) :
    ∀ x ∈ cascades, ∃ q y s, place p x = (q, .delete y s) ∧
      (s = .engineeringModel ∨ s = .iteration) := by
  intro x member
  cases caused with
  | nothing => cases member
  | closed =>
    obtain rfl := List.mem_singleton.mp member
    exact ⟨_, _, _, rfl, .inl rfl⟩
  | ended =>
    obtain rfl := List.mem_singleton.mp member
    exact ⟨_, _, _, rfl, .inr rfl⟩

/-- Where some faces stand in the midst of a batch of deletions: nothing was added to them, and only
deletions wait, which were submitted or are such as deletions cause. -/
structure Thinning (p : Partition) (operations : List Operation) (F : Faces) (d : Draft)
    (queue : List (Partition × Operation)) : Prop where
  forests : d.Forested
  thinned : F.Thinned (Stock.faces d.find?)
  deletes : ∀ x ∈ queue, ∃ y s, x.2 = .delete y s ∧
    ((x.1 = p ∧ x.2 ∈ operations) ∨ s = .engineeringModel ∨ s = .iteration)

namespace Thinning

variable {operations : List Operation} {operation : Operation} {F : Faces} {u : Face} {r : Partition}
  {waiting : List (Partition × Operation)}

theorem start (forests : d.Forested) : Thinning p operations (Stock.faces d.find?) d [] :=
  ⟨forests, .refl _, fun _ none => nomatch none⟩

theorem step (standard : env.registry = Registry.standard)
    (thinning : Thinning p operations F d ((q, operation) :: waiting))
    (effect : Effect env q d operation cascades d') :
    Thinning p operations F d' (waiting ++ cascades.map (place q)) := by
  obtain ⟨y, s, rfl, -⟩ := thinning.deletes _ List.mem_cons_self
  have refaced := effect.refaced standard (thinning.forests q) fun u same => by cases same
  refine ⟨effect.forested standard thinning.forests, thinning.thinned.trans (.of_refaced refaced), ?_⟩
  intro x member
  rcases List.mem_append.mp member with waits | caused
  · exact thinning.deletes x (List.mem_cons_of_mem _ waits)
  · obtain ⟨cascade, inside, rfl⟩ := List.mem_map.mp caused
    obtain ⟨r, z, t, placed, kind⟩ :=
      (effect.caused standard (thinning.forests q)).deletes cascade inside
    exact ⟨z, t, by rw [placed], .inr kind⟩

/-- An operation of the batch may wait. -/
theorem await (thinning : Thinning p operations F d []) (deletes : ∀ o ∈ operations, o.kind = .delete)
    (member : operation ∈ operations) : Thinning p operations F d [(p, operation)] := by
  refine ⟨thinning.forests, thinning.thinned, fun x here => ?_⟩
  obtain rfl := List.mem_singleton.mp here
  have kind := deletes operation member
  cases operation with
  | delete y s => exact ⟨y, s, rfl, .inl ⟨rfl, member⟩⟩
  | create | update => cases kind

/-- A setup of an engineering model goes with a submitted deletion of itself or of its container. -/
theorem taken (standard : env.registry = Registry.standard)
    (thinning : Thinning p operations F d ((q, operation) :: waiting))
    (effect : Effect env q d operation cascades d') (there : Stock.faces d.find? r e = some u)
    (kind : u.conceptType = .engineeringModelSetup) (gone : Stock.faces d'.find? r e = none) :
    r = p ∧ (Operation.delete e .engineeringModelSetup ∈ operations ∨
      ∃ k, u.container = some k ∧ Operation.delete k .siteDirectory ∈ operations) := by
  have forest := thinning.forests q
  obtain ⟨y, s, rfl, origin⟩ := thinning.deletes _ List.mem_cons_self
  have refaced := effect.refaced standard forest fun u same => by cases same
  obtain ⟨rfl, within, v, top, rfl⟩ := within_of_gone refaced there gone
  have submitted : v.conceptType ≠ .engineeringModel → v.conceptType ≠ .iteration →
      r = p ∧ Operation.delete y v.conceptType ∈ operations := fun root iteration =>
    origin.resolve_right fun caused => caused.elim root iteration
  rw [outlines_faces] at within
  cases within with
  | top =>
    cases there.symm.trans top
    rw [kind] at submitted
    exact (submitted (by decide) (by decide)).imp id .inl
  | @under _ k o stored container inside =>
    obtain ⟨setup, before, rfl⟩ := faces_eq_some_iff.mp there
    obtain ⟨setup', before', rfl⟩ := outlines_eq_some_iff.mp stored
    cases before.symm.trans before'
    obtain ⟨directory, fit, above, fits⟩ := forest.container_stored before container
    -- setups are contained in site directories, which are contained in nothing
    have type : directory.conceptType = .siteDirectory := by
      rw [show setup.conceptType = .engineeringModelSetup from kind] at fits
      exact EngineeringModelSetup.directory_of_containmentFor? fits
    have alone : directory.container = none :=
      forest.ordered.root k directory.outline (outlines_eq_some_iff.mpr ⟨directory, above, rfl⟩)
        (by rw [Concept.outline, type]; rfl)
    cases inside with
    | top =>
      obtain ⟨c, here, rfl⟩ := faces_eq_some_iff.mp top
      cases above.symm.trans here
      rw [show (Concept.face directory).conceptType = .siteDirectory from type] at submitted
      exact (submitted (by decide) (by decide)).imp id fun member => .inr ⟨_, container, member⟩
    | under stored' container' _ =>
      obtain ⟨c, here, rfl⟩ := outlines_eq_some_iff.mp stored'
      cases above.symm.trans here
      cases alone.symm.trans container'

/-- All or some of the operations of a batch of deletions. -/
theorem applyAll {s s' : State Memory.View} {index : Nat} {part : List Operation} {v : Unit}
    (standard : env.registry = Registry.standard) (deletes : ∀ o ∈ operations, o.kind = .delete)
    (among : part ⊆ operations) (start : Thinning p operations F s.draft [])
    (run : applyAll env p index part s = (.ok v, s')) : Thinning p operations F s'.draft [] := by
  refine applyAll_keeps (I := Thinning p operations F) ?_ ?_ start run
  · intro d d' q operation waiting cascades thinning effect
    exact thinning.step standard effect
  · intro d o member thinning
    exact thinning.await deletes (among member)

end Thinning

/-- The deletion of a setup of an engineering model, with what it causes, leaves no root of the
model. -/
theorem apply_closes {s s' : State Memory.View} {v : Unit}
    (standard : env.registry = Registry.standard) (forests : s.draft.Forested)
    (run : apply env p (.delete e .engineeringModelSetup) s = (.ok v, s')) :
    s'.draft.Forested ∧ ∃ setup model, s.draft.find? p e = some setup ∧
      setup.conceptType = .engineeringModelSetup ∧
      setup.ref? Property.engineeringModelIid = some model ∧
      s'.draft.find? (.model model) model = none := by
  -- first the deletion waits, then that of the root, unless there is none
  have closed := drain_keeps (I := fun d queue => d.Forested ∧
      ((d = s.draft ∧ queue = [(p, .delete e .engineeringModelSetup)]) ∨
        ∃ setup model, s.draft.find? p e = some setup ∧
          setup.conceptType = .engineeringModelSetup ∧
          setup.ref? Property.engineeringModelIid = some model ∧
          ((d.find? (.model model) model = none ∧ queue = []) ∨
            queue = [(.model model, .delete model .engineeringModel)])))
    ?_ ⟨forests, .inl ⟨rfl, rfl⟩⟩ run
  · obtain ⟨forests', ⟨-, waits⟩ | ⟨setup, model, stored, kind, named, ⟨gone, -⟩ | waits⟩⟩ := closed
    · cases waits
    · exact ⟨forests', setup, model, stored, kind, named, gone⟩
    · cases waits
  · rintro d d' q operation waiting cascades
      ⟨forests, ⟨rfl, first⟩ | ⟨setup, model, stored, kind, named, ⟨-, none⟩ | root⟩⟩ effect
    · cases first
      refine ⟨effect.forested standard forests, .inr ?_⟩
      cases effect with
      | delete effect =>
        obtain ⟨-, setup, _, _, _, after, stored, kind, hooked, rfl⟩ :=
          effect.felled standard (forests p) (by decide)
        obtain ⟨model, named, closes⟩ := hooked.closes standard kind
        refine ⟨setup, model, stored, kind, named, closes.imp (fun absent => ⟨absent.1, ?_⟩) ?_⟩
        · rw [absent.2]
          rfl
        · intro deletes
          rw [deletes]
          rfl
    · cases none
    · cases root
      refine ⟨effect.forested standard forests,
        .inr ⟨setup, model, stored, kind, named, .inl ?_⟩⟩
      cases effect with
      | delete effect =>
        obtain ⟨gone, former, _, _, _, after, -, type, hooked, rfl⟩ :=
          effect.felled standard (forests _) (by decide)
        refine ⟨gone, ?_⟩
        rcases hooked.deleted standard with ⟨setup, -⟩ | ⟨setup, -⟩ | nothing
        · cases type.symm.trans setup
        · cases type.symm.trans setup
        · rw [nothing]
          rfl

/-- The operations of a batch of deletions, of which one deletes the setup of an engineering model,
leave no root of its model. -/
theorem applyAll_closes {s s' : State Memory.View} {index : Nat} {operations : List Operation}
    {v : Unit} {setup : Concept} (standard : env.registry = Registry.standard)
    (deletes : ∀ o ∈ operations, o.kind = .delete)
    (own : .delete e .engineeringModelSetup ∈ operations) (forests : s.draft.Forested)
    (stored : s.draft.find? p e = some setup)
    (run : applyAll env p index operations s = (.ok v, s')) :
    ∃ model, setup.ref? Property.engineeringModelIid = some model ∧
      s'.draft.find? (.model model) model = none := by
  obtain ⟨front, back, rfl⟩ := List.append_of_mem own
  -- the batch up to the setup, then the setup, then the others
  obtain ⟨a, first, rest⟩ := applyAll_front_ok run
  obtain ⟨_, b, closing, later⟩ := bind_eq_ok_iff.mp rest
  have reached := (Thinning.start forests).applyAll standard deletes
    (List.subset_append_left _ _) first
  obtain ⟨forests', setup', model, there, kind, named, gone⟩ :=
    apply_closes standard reached.forests (mapError_eq_ok_iff.mp closing)
  have thinned := ((Thinning.start forests').applyAll standard deletes
    (fun o member => List.mem_append_right _ (List.mem_cons_of_mem _ member)) later).thinned
  refine ⟨model, ?_, ?_⟩
  · -- the setup has still been the one that was stored at first
    have face := (faces_of_stored stored).symm.trans (reached.thinned p e _ (faces_of_stored there))
    rw [Concept.face_of_link kind rfl named] at face
    have type : setup.conceptType = .engineeringModelSetup :=
      congrArg Face.conceptType (Option.some.inj face)
    have link : setup.link? = some model := congrArg Face.link (Option.some.inj face)
    rw [Concept.link?, type] at link
    exact link
  · by_contra kept
    obtain ⟨c, root⟩ := Option.ne_none_iff_exists'.mp kept
    obtain ⟨c', root', -⟩ := faces_eq_some_iff.mp (thinned _ _ _ (faces_of_stored root))
    cases gone.symm.trans root'

/-- A setup of an engineering model that the operations of a batch of deletions take away is deleted
by one of them, or its container is. -/
theorem applyAll_takes {s s' : State Memory.View} {index : Nat} {operations : List Operation}
    {v : Unit} {setup : Concept} (standard : env.registry = Registry.standard)
    (deletes : ∀ o ∈ operations, o.kind = .delete) (forests : s.draft.Forested)
    (stored : s.draft.find? q e = some setup) (kind : setup.conceptType = .engineeringModelSetup)
    (gone : s'.draft.find? q e = none)
    (run : applyAll env p index operations s = (.ok v, s')) :
    q = p ∧ (.delete e .engineeringModelSetup ∈ operations ∨
      ∃ k, setup.container = some k ∧ .delete k .siteDirectory ∈ operations) := by
  have fate := applyAll_keeps (I := fun d queue =>
      Thinning p operations (Stock.faces s.draft.find?) d queue ∧
      (Stock.faces d.find? q e = some setup.face ∨ q = p ∧
        (.delete e .engineeringModelSetup ∈ operations ∨
          ∃ k, setup.container = some k ∧ .delete k .siteDirectory ∈ operations)))
    ?_ ?_ ⟨.start forests, .inl (faces_of_stored stored)⟩ run
  · refine fate.2.resolve_left fun there => ?_
    rw [Stock.faces, gone] at there
    cases there
  · rintro d d' r operation waiting cascades ⟨thinning, there | taken⟩ effect
    · refine ⟨thinning.step standard effect, ?_⟩
      cases after : Stock.faces d'.find? q e with
      | none => exact .inr (thinning.taken standard effect there kind after)
      | some u =>
        have thinned := (thinning.step standard effect).thinned q e u after
        exact .inl (thinned.symm.trans (faces_of_stored stored))
    · exact ⟨thinning.step standard effect, .inr taken⟩
  · rintro d o member ⟨thinning, fate⟩
    exact ⟨thinning.await deletes member, fate⟩

end Batch

namespace Memory

open Batch Faces

/-- A committed batch has applied its operations to what was stored before, and left what is stored
after it. -/
theorem Committed.applied {policy : Policy} {request : BatchRequest} {before after : Contents}
    {outcome : BatchOutcome} (committed : Committed policy request before after outcome) :
    ∃ s s' : Batch.State View, s.draft.find? = before.find? ∧ s'.draft.find? = after.find? ∧
      applyAll (policy.settingFor request.actor) request.partition 0 request.operations s =
        (.ok (), s') := by
  obtain ⟨v, ids, s, rfl, rfl, run⟩ := committed.run
  obtain ⟨_, s₁, applied, finished⟩ := Step.bind_eq_ok_iff.mp run
  obtain ⟨records, contents, -, -⟩ := finish_ok finished
  exact ⟨_, s₁, rfl, by rw [contents]; rfl, applied⟩

/-- After every history under the standard registry, a batch of deletions that takes away the setup of
an engineering model either deletes it by an operation, and then leaves nothing of the model that it
names, or deletes the site directory that contains it. -/
theorem removal_after (visits : List Visit) {policy : Policy} {request : BatchRequest} {now : Instant}
    {ids : IdSupply} (standard : ∀ v ∈ visits ++ [.batch policy request now ids],
      v.policy.registry = Registry.standard)
    (deletes : ∀ o ∈ request.operations, o.kind = .delete) {p : Partition} {e : ConceptId}
    {setup : Concept} (stored : (Database.after visits).contents.find? p e = some setup)
    (kind : setup.conceptType = .engineeringModelSetup)
    (gone : (Database.after (visits ++ [.batch policy request now ids])).contents.find? p e = none) :
    request.partition = p ∧
      ((.delete e .engineeringModelSetup ∈ request.operations ∧
        ∃ model, setup.ref? Property.engineeringModelIid = some model ∧
          ∀ x, Outline.Within
              (outlines ((Database.after visits).contents.find? (.model model))) model x →
            (Database.after (visits ++ [.batch policy request now ids])).contents.find?
              (.model model) x = none) ∨
      (.delete e .engineeringModelSetup ∉ request.operations ∧
        ∃ k, setup.container = some k ∧ .delete k .siteDirectory ∈ request.operations)) := by
  have forests := forested_after visits fun v member => standard v (List.mem_append_left _ member)
  have forests' := forested_after _ standard
  have registry : policy.registry = Registry.standard :=
    standard (.batch policy request now ids) (by simp)
  rw [Database.after_concat, Visit.after] at gone forests' ⊢
  rcases submit_contents policy request now ids (Database.after visits) with
    ⟨outcome, -, committed⟩ | ⟨-, same⟩
  · obtain ⟨s, s', old, new, run⟩ := committed.applied
    have opened : s.draft.Forested := fun q => by rw [old]; exact forests q
    have thinned :=
      ((Thinning.start opened).applyAll registry deletes (List.Subset.refl _) run).thinned
    rw [← old] at stored
    obtain ⟨rfl, taken⟩ :=
      applyAll_takes registry deletes opened stored kind (by rw [new]; exact gone) run
    refine ⟨rfl, ?_⟩
    by_cases own : .delete e .engineeringModelSetup ∈ request.operations
    · obtain ⟨model, named, closed⟩ := applyAll_closes registry deletes own opened stored run
      rw [old, new] at thinned
      refine .inl ⟨own, model, named, fun x within => ?_⟩
      exact thinned.gone_of_within (forests' _) (by rw [← new]; exact closed) within
    · exact .inr ⟨own, taken.resolve_left own⟩
  · rw [same, stored] at gone
    cases gone

/-- The visit that deletes the setup of a model. -/
def closing : Visit := .batch {} (deleting (.ofNat 3) .engineeringModelSetup) default ⟨.ofNat, 20⟩

/-- A model with its iterations goes with its setup. -/
theorem removal_after_closing : ∃ setup,
    (Database.after [founding, iterating]).contents.find? .siteDirectory (.ofNat 3) = some setup ∧
    setup.conceptType = .engineeringModelSetup ∧
    (Database.after [founding, iterating, closing]).contents.find? .siteDirectory (.ofNat 3) = none ∧
    ∃ model, setup.ref? Property.engineeringModelIid = some model ∧
      ∀ x, Outline.Within
          (outlines ((Database.after [founding, iterating]).contents.find? (.model model))) model x →
        (Database.after [founding, iterating, closing]).contents.find? (.model model) x = none := by
  obtain ⟨setup, stored, kind⟩ : ∃ setup, (Database.after [founding, iterating]).contents.find?
      .siteDirectory (.ofNat 3) = some setup ∧ setup.conceptType = .engineeringModelSetup :=
    stored_of_any (by decide +kernel)
  have gone : (Database.after [founding, iterating, closing]).contents.find? .siteDirectory
      (.ofNat 3) = none := by decide +kernel
  refine ⟨setup, stored, kind, gone, ?_⟩
  have taken := removal_after [founding, iterating] ?_ ?_ stored kind gone
  · rcases taken.2 with ⟨-, closed⟩ | ⟨other, -⟩
    · exact closed
    · exact absurd (List.mem_singleton_self _) other
  · intro v member
    simp only [List.cons_append, List.nil_append, List.mem_cons, List.not_mem_nil, or_false] at member
    rcases member with rfl | rfl | rfl <;> rfl
  · intro o member
    obtain rfl := List.mem_singleton.mp member
    rfl

/-- The visit that deletes the site directory. -/
def dissolving : Visit := .batch {} (deleting (.ofNat 2) .siteDirectory) default ⟨.ofNat, 20⟩

/-- A model stays when its setup falls with the site directory. -/
theorem removal_after_dissolving :
    (∀ v ∈ [founding, iterating, dissolving], v.policy.registry = Registry.standard) ∧
    (∀ o ∈ (deleting (.ofNat 2) .siteDirectory).operations, o.kind = .delete) ∧
    (∃ setup, (Database.after [founding, iterating]).contents.find? .siteDirectory (.ofNat 3) =
        some setup ∧ setup.conceptType = .engineeringModelSetup ∧
      setup.ref? Property.engineeringModelIid = some (.ofNat 6)) ∧
    (Database.after [founding, iterating, dissolving]).contents.find? .siteDirectory (.ofNat 3) =
      none ∧
    ∃ root, (Database.after [founding, iterating, dissolving]).contents.find? (.model (.ofNat 6))
        (.ofNat 6) = some root ∧ root.conceptType = .engineeringModel := by
  refine ⟨fun v member => ?_, by decide, stored_of_any (by decide +kernel), by decide +kernel,
    stored_of_any (by decide +kernel)⟩
  simp only [List.mem_cons, List.not_mem_nil, or_false] at member
  rcases member with rfl | rfl | rfl <;> rfl

end Memory

end ConceptLedger
