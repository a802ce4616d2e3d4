import ConceptLedger.Proofs.Lifecycle.Removal
import ConceptLedger.Proofs.Read.Concealment
import ConceptLedger.Proofs.Tables.Mirror

/-!
Histories after deletions. A batch of deletions leaves type, container and exclusions of every
concept as they were, in the store and in the log. So it opens the history of a concept to an actor
only by taking away the container that was closed to him: a concept whose container is gone is
judged as if nothing had contained it.
-/

namespace ConceptLedger

open Step

/-- Two states of a concept that agree in what decides who may read it. -/
structure Concept.SameAccess (c c' : Concept) : Prop where
  id : c'.id = c.id
  type : c'.conceptType = c.conceptType
  container : c'.container = c.container
  override : c'.accessOverride = c.accessOverride

theorem Concept.SameAccess.refl (c : Concept) : c.SameAccess c := ⟨rfl, rfl, rfl, rfl⟩

theorem Concept.SameAccess.trans {a b c : Concept} (first : a.SameAccess b) (later : b.SameAccess c) :
    a.SameAccess c :=
  ⟨later.id.trans first.id, later.type.trans first.type, later.container.trans first.container,
    later.override.trans first.override⟩

theorem Concept.SameAccess.of_bare {c c' : Concept} (same : c'.bare = c.bare) : c.SameAccess c' :=
  have ⟨id, type, _, container, override⟩ := Concept.bare_eq_iff.mp same
  ⟨id, type, container, override⟩

theorem Concept.SameAccess.stamped {c c' : Concept} (same : c.SameAccess c') (r : UInt64) :
    c.SameAccess { c' with revisionNumber := r } :=
  ⟨same.id, same.type, same.container, same.override⟩

/-- A later stock that has lost some of the concepts and has none besides them, each with the access
that it had. -/
def Stock.Shed (f f' : Stock) : Prop :=
  ∀ p x c', f' p x = some c' → ∃ c, f p x = some c ∧ c.SameAccess c'

theorem Stock.Shed.refl (f : Stock) : f.Shed f := fun _ _ c there => ⟨c, there, .refl c⟩

theorem Stock.Shed.trans {f f' f'' : Stock} (first : f.Shed f') (later : f'.Shed f'') : f.Shed f'' := by
  intro p x c'' there
  obtain ⟨c', before, same'⟩ := later p x c'' there
  obtain ⟨c, earlier, same⟩ := first p x c' before
  exact ⟨c, earlier, same.trans same'⟩

/-- Hooks that, when they are asked about a deletion, leave the access to concepts as it is and cause
nothing but further deletions. -/
structure Registry.Restrained (registry : Registry) : Prop where
  before : ∀ {env p d security former c container c' outcome}, env.registry = registry →
    Batch.Hooked env p d security (.beforeDelete former) c container c' outcome →
    c.SameAccess c' ∧ ∀ x ∈ outcome.cascades, x.operation.kind = .delete
  after : ∀ {env p d security former c container c' outcome}, env.registry = registry →
    Batch.Hooked env p d security (.afterDelete former) c container c' outcome →
    ∀ x ∈ outcome.cascades, x.operation.kind = .delete

theorem Registry.restrained_standard : Registry.standard.Restrained where
  before := by
    intro env p d security former c container c' outcome standard hooked
    refine ⟨.of_bare (hooked.kept standard).bare, ?_⟩
    rw [hooked.quiet standard (.inl rfl)]
    exact nofun
  after := by
    intro env p d security former c container c' outcome standard hooked x member
    rcases hooked.deleted standard with ⟨-, model, -, caused⟩ | ⟨-, -, _, model, id, -, -, -, caused⟩ |
      caused
    · obtain rfl := List.mem_singleton.mp (caused ▸ member)
      rfl
    · obtain rfl := List.mem_singleton.mp (caused ▸ member)
      rfl
    · cases caused ▸ member

namespace Batch

variable {env : Setting} {p : Partition} {d d' : Draft} {id : ConceptId} {t : ConceptType}
  {cascades : List Cascade}

/-- A concept that is put in place of a stored one with the same access. -/
theorem shed_put {c former : Concept} {existed : Bool} (before : d.find? p former.id = some former)
    (same : former.SameAccess c) : Stock.Shed d.find? (d.put p c existed).find? := by
  intro q x c' there
  rw [Draft.find?_put] at there
  split at there
  · rename_i here
    obtain ⟨rfl, rfl⟩ := here
    cases there
    exact ⟨former, same.id ▸ before, same⟩
  · exact ⟨c', there, .refl c'⟩

theorem Removed.shed {order : List (ConceptId × ConceptType)} (removed : Removed p d order d') :
    Stock.Shed d.find? d'.find? := by
  intro q x c there
  rw [removed.find?] at there
  split at there
  · cases there
  · exact ⟨c, there, .refl c⟩

theorem shed_allot (d : Draft) (p : Partition) : Stock.Shed d.find? (d.allot p).find? := by
  intro q x c there
  rw [Draft.find?_allot] at there
  exact ⟨c, there, .refl c⟩

theorem Left.shed {r : UInt64} {child : ConceptId} {container container' : Option Concept}
    (keyed : ∀ parent, container = some parent → (d.find? p parent.id).isSome = true →
      d.find? p parent.id = some parent)
    (left : Left p d r child container container' d') : Stock.Shed d.find? d'.find? := by
  cases left with
  | root => exact .refl _
  | @under parent present =>
    have same : parent.SameAccess (parent.detach child) := .of_bare (parent.detach_bare child)
    exact shed_put (keyed parent rfl present) (same.stamped r)

/-- A deletion sheds concepts and causes nothing but deletions. -/
theorem DeleteEffect.shed (restrained : env.registry.Restrained) (keyed : d.contents.Keyed)
    (effect : DeleteEffect env p d id t cascades d') :
    Stock.Shed d.find? d'.find? ∧ ∀ x ∈ cascades, x.operation.kind = .delete := by
  have own : ∀ {y : ConceptId} {c : Concept}, d.find? p y = some c → c.id = y :=
    fun {y c} there => keyed ⟨p, y⟩ c there
  have either : ∀ {first later : List Cascade}, (∀ x ∈ first, x.operation.kind = .delete) →
      (∀ x ∈ later, x.operation.kind = .delete) →
      ∀ x ∈ first ++ later, x.operation.kind = .delete :=
    fun deletes deletes' x member => (List.mem_append.mp member).elim (deletes x) (deletes' x)
  cases effect with
  | skipped request => exact ⟨.refl _, (restrained.before rfl request.hooked).2⟩
  | kept request _ _ hooked =>
    exact ⟨.refl _, either (restrained.before rfl request.hooked).2 (restrained.after rfl hooked)⟩
  | @marked former c' _ _ _ _ request _ _ _ _ hooked =>
    obtain ⟨same, deletes⟩ := restrained.before rfl request.hooked
    refine ⟨(shed_allot d p).trans (shed_put ?_ (same.stamped _)),
      either deletes (restrained.after rfl hooked)⟩
    rw [Draft.find?_allot, own request.stored]
    exact request.stored
  | @removed former _ _ container _ _ _ _ d₁ _ request _ _ _ removed left hooked =>
    obtain ⟨-, deletes⟩ := restrained.before rfl request.hooked
    refine ⟨((shed_allot d p).trans removed.shed).trans (left.shed ?_),
      either deletes (restrained.after rfl hooked)⟩
    -- the container that is left is still the stored one
    intro parent held present
    obtain ⟨y, -, there⟩ := Option.bind_eq_some_iff.mp (request.within.symm.trans held)
    obtain rfl := own there
    rw [removed.find?, Draft.find?_allot] at present ⊢
    split at present
    · cases present
    · rename_i outside
      rw [if_neg outside]
      exact there

/-- Where a batch of deletions stands: concepts were shed, and only deletions wait. -/
structure Shedding (f : Stock) (d : Draft) (queue : List (Partition × Operation)) : Prop where
  keyed : d.contents.Keyed
  shed : f.Shed d.find?
  deletes : ∀ x ∈ queue, x.2.kind = .delete

theorem Shedding.step {f : Stock} {operation : Operation} {waiting : List (Partition × Operation)}
    (restrained : env.registry.Restrained) (shedding : Shedding f d ((p, operation) :: waiting))
    (effect : Effect env p d operation cascades d') :
    Shedding f d' (waiting ++ cascades.map (place p)) := by
  have keyed := effect.keyed shedding.keyed
  have deletes := shedding.deletes _ List.mem_cons_self
  cases effect with
  | create | update => cases deletes
  | delete effect =>
    obtain ⟨shed, caused⟩ := effect.shed restrained shedding.keyed
    refine ⟨keyed, shedding.shed.trans shed, fun x member => ?_⟩
    rcases List.mem_append.mp member with waits | new
    · exact shedding.deletes x (List.mem_cons_of_mem _ waits)
    · obtain ⟨cascade, inside, rfl⟩ := List.mem_map.mp new
      exact caused cascade inside

/-- A batch of deletions sheds concepts. -/
theorem applyAll_shed {s s' : State Memory.View} {index : Nat} {operations : List Operation} {u : Unit}
    (restrained : env.registry.Restrained) (keyed : s.draft.contents.Keyed)
    (deletes : ∀ o ∈ operations, o.kind = .delete)
    (run : applyAll env p index operations s = (.ok u, s')) :
    Stock.Shed s.draft.find? s'.draft.find? := by
  refine (applyAll_keeps (I := Shedding s.draft.find?) ?_ ?_ ⟨keyed, .refl _, nofun⟩ run).shed
  · intro d d' q operation waiting cascades shedding effect
    exact shedding.step restrained effect
  · intro d operation member shedding
    refine ⟨shedding.keyed, shedding.shed, fun x here => ?_⟩
    obtain rfl := List.mem_singleton.mp here
    exact deletes operation member

end Batch

namespace Memory

variable {s s' : Contents} {p : Partition} {id : ConceptId}

/-- A committed batch of deletions sheds concepts. -/
theorem Committed.shed {policy : Policy} {request : BatchRequest} {outcome : BatchOutcome}
    (committed : Committed policy request s s' outcome) (restrained : policy.registry.Restrained)
    (keyed : s.Keyed) (deletes : ∀ o ∈ request.operations, o.kind = .delete) :
    Stock.Shed s.find? s'.find? := by
  obtain ⟨t, t', old, new, run⟩ := committed.applied
  rw [← old, ← new]
  refine Batch.applyAll_shed restrained (fun a c there => keyed a c ?_) deletes run
  exact (congrFun (congrFun old a.partition) a.id).symm.trans there

/-- The last state that the records of a concept tell. -/
def Contents.told? (s : Contents) (p : Partition) (id : ConceptId) : Option Concept :=
  ((s.recordsOf p id).filterMap (·.state)).getLast?

/-- What is stored is told last. -/
theorem told?_of_stored {c : Concept} (logged : s.Logged) (ordered : s.Ordered)
    (stored : s.find? p id = some c) : s.told? p id = some c := by
  have increasing : (s.recordsOf p id).Pairwise fun a b => a.revision < b.revision :=
    (ordered.filter _).imp_of_mem fun inside inside' below =>
      below ((mem_recordsOf.mp inside).2.trans (mem_recordsOf.mp inside').2.symm)
  have newest := (logged p id).symm.trans stored
  rw [Contents.latest?, List.filter_true, ← Tables.newest?_of_sorted (.refl _) increasing] at newest
  obtain ⟨last, ends, state⟩ := Option.bind_eq_some_iff.mp newest
  obtain ⟨front, split⟩ := List.getLast?_eq_some_iff.mp ends
  rw [Contents.told?, split, List.filterMap_append, List.filterMap_cons_some state, List.filterMap_nil,
    List.getLast?_concat]

theorem told?_refl (same : s'.told? p id = s.told? p id) :
    Option.Rel Concept.SameAccess (s.told? p id) (s'.told? p id) := by
  rw [same]
  cases s.told? p id with
  | none => exact .none
  | some c => exact .some (.refl c)

/-- A batch that sheds concepts leaves the last told states with the access that they had. -/
theorem told?_shed {outcome : BatchOutcome} {changed : List Address} {records : List RevisionRecord}
    (audit : Batch.Audit s s' outcome changed records) (logged : s.Logged) (ordered : s.Ordered)
    (shed : Stock.Shed s.find? s'.find?) (p : Partition) (id : ConceptId) :
    Option.Rel Concept.SameAccess (s.told? p id) (s'.told? p id) := by
  rcases audit.recordsOf p id with ⟨-, kept⟩ | ⟨r, -, -, state, grown⟩
  · exact told?_refl (by rw [Contents.told?, kept, Contents.told?])
  · cases there : s'.find? p id with
    | none =>
      refine told?_refl ?_
      rw [Contents.told?, grown, List.filterMap_append, List.filterMap_cons_none (state.trans there),
        List.filterMap_nil, List.append_nil, Contents.told?]
    | some c' =>
      obtain ⟨c, before, access⟩ := shed p id c' there
      rw [told?_of_stored logged ordered before, Contents.told?, grown, List.filterMap_append,
        List.filterMap_cons_some (state.trans there), List.filterMap_nil, List.getLast?_concat]
      exact .some access

/-- The records of a concept for someone who may read the state that was told last. -/
def Contents.historyFor (s : Contents) (gate : Gate) (actor : Actor) (p : Partition) (id : ConceptId) :
    List RevisionRecord :=
  match s.told? p id with
  | none => []
  | some c =>
    if gate.canRead actor c p (gate.contextFor actor p (c.container.bind (s.find? p))) then
      s.recordsOf p id
    else []

/-- A history is answered in the order in which it was recorded. -/
theorem readHistory_result (visits : List Visit) (policy : Policy) (actor : Actor) (p : Partition)
    (id : ConceptId) (now : Instant) :
    (policy.readHistory actor p id now (Database.after visits)).1.result =
      .ok ((Database.after visits).contents.historyFor policy.gate actor p id) := by
  have available := unavailable_after visits
  have ordered := (ordered_after visits).1
  generalize Database.after visits = db at *
  have sorted : sortByKey (·.revision) (db.contents.recordsOf p id) = db.contents.recordsOf p id := by
    refine sortByKey_eq_self ((ordered.filter _).imp_of_mem fun inside inside' below => ?_)
    exact Ordering.isLE_of_eq_lt (Std.compare_eq_lt.mpr
      (below ((mem_recordsOf.mp inside).2.trans (mem_recordsOf.mp inside').2.symm)))
  have recorded : ConceptStore.history (db.viewAt now) p id = .ok (db.contents.recordsOf p id) :=
    congrArg Except.ok sorted
  have answered : Reader.history (⟨db.viewAt now, policy.gate, actor, p, {}⟩ : Reader View) id =
      .ok (db.contents.historyFor policy.gate actor p id) := by
    unfold Reader.history Contents.historyFor Contents.told?
    rw [recorded]
    show (match ((db.contents.recordsOf p id).filterMap (·.state)).getLast? with
      | none => _
      | some latest => _) = _
    cases ((db.contents.recordsOf p id).filterMap (·.state)).getLast? with
    | none => rfl
    | some c =>
      dsimp only
      rw [Reader.contextOf_eq]
      rfl
  rw [Policy.readHistory, reading_of_found policy _ actor p _ now available
    (lift_eq_ok_iff.mpr ⟨answered, rfl⟩)]

/-- A concept whose history opens when its container goes: the state that was told last names a
container that is stored before and gone after, and may be read where nothing contains it. -/
def Contents.Orphaned (s s' : Contents) (gate : Gate) (actor : Actor) (p : Partition) (id : ConceptId) :
    Prop :=
  ∃ c k, s'.told? p id = some c ∧ c.container = some k ∧ (s.find? p k).isSome = true ∧
    s'.find? p k = none ∧ gate.canRead actor c p .unrestricted = true

theorem recordsOf_ne_nil_of_told {c : Concept} (told : s.told? p id = some c) :
    s.recordsOf p id ≠ [] := by
  intro none
  rw [Contents.told?, none] at told
  cases told

/-- The history of an orphaned concept is open. -/
theorem historyFor_orphaned {gate : Gate} {actor : Actor} (orphaned : s.Orphaned s' gate actor p id) :
    s'.historyFor gate actor p id = s'.recordsOf p id := by
  obtain ⟨c, k, told, held, -, gone, readable⟩ := orphaned
  rw [Contents.historyFor, told]
  dsimp only
  rw [held, Option.bind_some, gone]
  exact if_pos readable

/-- A history is closed to those who may not read the state that was told last. -/
theorem historyFor_eq_nil_iff {gate : Gate} {actor : Actor} :
    s.historyFor gate actor p id = [] ↔ ∀ c, s.told? p id = some c →
      gate.canRead actor c p (gate.contextFor actor p (c.container.bind (s.find? p))) = false := by
  unfold Contents.historyFor
  cases told : s.told? p id with
  | none => exact iff_of_true rfl nofun
  | some c =>
    dsimp only
    refine ⟨fun closed _ last => ?_, fun denied => if_neg (Bool.eq_false_iff.mp (denied c rfl))⟩
    cases last
    refine Bool.eq_false_iff.mpr fun allowed => recordsOf_ne_nil_of_told told ?_
    rwa [if_pos allowed] at closed

/-- Where concepts were shed, a state that could not be read can be read with the same access only
when its container went. -/
theorem denied_shed {d : ScopeDefaults} {actor : Actor} {c c' : Concept}
    (shed : Stock.Shed s.find? s'.find?) (same : c.SameAccess c')
    (denied : d.gate.canRead actor c p
      (d.gate.contextFor actor p (c.container.bind (s.find? p))) = false) :
    d.gate.canRead actor c' p (d.gate.contextFor actor p (c'.container.bind (s'.find? p))) = false ∨
      ∃ k, c'.container = some k ∧ (s.find? p k).isSome = true ∧ s'.find? p k = none ∧
        d.gate.canRead actor c' p .unrestricted = true := by
  rw [ScopeDefaults.canRead_congr same.type same.override,
    ScopeDefaults.canRead_congr same.type same.override, same.container]
  cases container : c.container with
  | none =>
    rw [container] at denied
    exact .inl denied
  | some k =>
    rw [container] at denied
    simp only [Option.bind_some] at denied ⊢
    cases after : s'.find? p k with
    | some u' =>
      -- the container is as open as it was
      obtain ⟨u, before, access⟩ := shed p k u' after
      rw [before] at denied
      refine .inl (Bool.eq_false_iff.mpr fun allowed => Bool.eq_false_iff.mp denied ?_)
      refine d.gate_monotone actor c p _ _ ?_ allowed
      exact (ScopeDefaults.canRead_congr access.type access.override .unrestricted).symm.trans
    | none =>
      cases before : s.find? p k with
      | none =>
        rw [before] at denied
        exact .inl denied
      | some u =>
        by_cases allowed : d.gate.canRead actor c p .unrestricted = true
        · exact .inr ⟨k, rfl, congrArg Option.isSome before, after, allowed⟩
        · exact .inl (Bool.eq_false_iff.mpr allowed)

/-- Where concepts were shed, a history that was closed stays closed unless the concept is orphaned. -/
theorem historyFor_shed {d : ScopeDefaults} {actor : Actor} (shed : Stock.Shed s.find? s'.find?)
    (told : Option.Rel Concept.SameAccess (s.told? p id) (s'.told? p id))
    (closed : s.historyFor d.gate actor p id = []) (housed : ¬ s.Orphaned s' d.gate actor p id) :
    s'.historyFor d.gate actor p id = [] := by
  rw [historyFor_eq_nil_iff] at closed ⊢
  intro c' last
  rw [last] at told
  cases first : s.told? p id with
  | none =>
    rw [first] at told
    cases told
  | some c =>
    rw [first] at told
    obtain ⟨same⟩ := told
    refine (denied_shed shed same (closed c first)).resolve_right ?_
    rintro ⟨k, held, before, gone, readable⟩
    exact housed ⟨c', k, last, held, before, gone, readable⟩

/-- After every history, deletions under restrained hooks, which those of the standard registry are,
leave a history closed to whom it was closed, unless they take away the container of the concept: then
it is open to those who may read the concept where nothing contains it. -/
theorem histories_after_deletions (visits : List Visit) (policy : Policy) (request : BatchRequest)
    (now : Instant) (ids : IdSupply) (restrained : policy.registry.Restrained)
    (deletes : ∀ o ∈ request.operations, o.kind = .delete) (d : ScopeDefaults) (actor : Actor)
    (p : Partition) (id : ConceptId) (before after : Instant)
    (closed : (({ gate := d.gate } : Policy).readHistory actor p id before
      (Database.after visits)).1.result = .ok []) :
    let later := Database.after (visits ++ [.batch policy request now ids])
    let history := (({ gate := d.gate } : Policy).readHistory actor p id after later).1.result
    ((Database.after visits).contents.Orphaned later.contents d.gate actor p id →
      later.contents.recordsOf p id ≠ [] ∧ history = .ok (later.contents.recordsOf p id)) ∧
    (¬ (Database.after visits).contents.Orphaned later.contents d.gate actor p id →
      history = .ok []) := by
  intro later history
  have answered : history = .ok (later.contents.historyFor d.gate actor p id) :=
    readHistory_result (visits ++ [.batch policy request now ids]) { gate := d.gate } actor p id after
  rw [readHistory_result] at closed
  have closed := Except.ok.inj closed
  have sheds : Stock.Shed (Database.after visits).contents.find? later.contents.find? ∧
      Option.Rel Concept.SameAccess ((Database.after visits).contents.told? p id)
        (later.contents.told? p id) := by
    have sound := sound_after visits
    rcases submit_contents policy request now ids (Database.after visits) with
      ⟨outcome, -, committed⟩ | ⟨-, same⟩
    · obtain ⟨changed, records, audit⟩ := committed.audit sound.stamped
      have shed := committed.shed restrained sound.keyed deletes
      have told := fun p id =>
        told?_shed audit (logged_after visits) (ordered_after visits).1 shed p id
      rw [← Visit.after, ← Database.after_concat] at shed told
      exact ⟨shed, told p id⟩
    · rw [← Visit.after, ← Database.after_concat] at same
      rw [show later.contents = _ from same]
      exact ⟨.refl _, told?_refl rfl⟩
  refine ⟨fun orphaned => ⟨?_, answered.trans (congrArg _ (historyFor_orphaned orphaned))⟩,
    fun housed => answered.trans (congrArg _ (historyFor_shed sheds.1 sheds.2 closed housed))⟩
  obtain ⟨c, -, told, -⟩ := orphaned
  exact recordsOf_ne_nil_of_told told

/-- The visit that deletes the library of the first directory. -/
def closingLibrary : Visit :=
  .batch {} (deleting (.ofNat 3) .siteReferenceDataLibrary) default ⟨.ofNat, 20⟩

/-- The history of a deleted library stays closed to the reader whom its directory is closed to. -/
theorem histories_after_closingLibrary :
    Registry.standard.Restrained ∧
    (∀ o ∈ (deleting (.ofNat 3) .siteReferenceDataLibrary).operations, o.kind = .delete) ∧
    (({ gate := ({} : ScopeDefaults).gate } : Policy).readHistory reader .siteDirectory (.ofNat 3) default
      (Database.after [parting .standard])).1.result = .ok [] ∧
    ((Database.after [parting .standard, closingLibrary]).contents.recordsOf .siteDirectory
      (.ofNat 3)).length = 2 ∧
    (({ gate := ({} : ScopeDefaults).gate } : Policy).readHistory reader .siteDirectory (.ofNat 3) default
      (Database.after [parting .standard, closingLibrary])).1.result = .ok [] := by
  have deletes : ∀ o ∈ (deleting (.ofNat 3) .siteReferenceDataLibrary).operations,
      o.kind = .delete := by
    intro o member
    obtain rfl := List.mem_singleton.mp member
    rfl
  have closed : (({ gate := ({} : ScopeDefaults).gate } : Policy).readHistory reader .siteDirectory
      (.ofNat 3) default (Database.after [parting .standard])).1.result = .ok [] := by
    rw [readHistory_result]
    exact congrArg _ (List.isEmpty_iff.mp (by decide +kernel))
  refine ⟨Registry.restrained_standard, deletes, closed, by decide +kernel, ?_⟩
  refine (histories_after_deletions [parting .standard] {} _ default ⟨.ofNat, 20⟩
    Registry.restrained_standard deletes {} reader .siteDirectory (.ofNat 3) default default closed).2 ?_
  -- the directory that contained the library is still there
  rintro ⟨c, k, told, held, -, gone, -⟩
  have named : ((Database.after [parting .standard, closingLibrary]).contents.told? .siteDirectory
      (.ofNat 3)).bind (·.container) = some (.ofNat 2) := by decide +kernel
  have there : ((Database.after [parting .standard, closingLibrary]).contents.find? .siteDirectory
      (.ofNat 2)).isSome = true := by decide +kernel
  rw [show (Database.after [parting .standard, closingLibrary]).contents.told? _ _ = _ from told,
    Option.bind_some, held] at named
  obtain rfl := Option.some.inj named
  rw [show (Database.after [parting .standard, closingLibrary]).contents.find? _ _ = _ from gone] at there
  cases there

/-- When the directory itself is deleted the history of its library opens to the reader. -/
theorem histories_after_dissolving :
    (∀ v ∈ [parting .standard, dissolving], v.policy.registry = Registry.standard) ∧
    (∀ o ∈ (deleting (.ofNat 2) .siteDirectory).operations, o.kind = .delete) ∧
    (({ gate := ({} : ScopeDefaults).gate } : Policy).readHistory reader .siteDirectory (.ofNat 3) default
      (Database.after [parting .standard])).1.result.toOption.map (·.length) = some 0 ∧
    ((Database.after [parting .standard]).contents.recordsOf .siteDirectory (.ofNat 3)).length = 1 ∧
    (({ gate := ({} : ScopeDefaults).gate } : Policy).readHistory reader .siteDirectory (.ofNat 3) default
      (Database.after [parting .standard, dissolving])).1.result.toOption.map (·.length) = some 2 := by
  refine ⟨fun v member => ?_, by decide, by decide +kernel, by decide +kernel, by decide +kernel⟩
  simp only [List.mem_cons, List.not_mem_nil, or_false] at member
  rcases member with rfl | rfl <;> rfl

end Memory

end ConceptLedger
