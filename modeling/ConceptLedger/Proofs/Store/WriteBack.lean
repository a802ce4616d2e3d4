import ConceptLedger.Proofs.Lifecycle.Iterations
import ConceptLedger.Proofs.Store.Submission

/-!
Writing back what was read. A concept is submitted as it is stored, perhaps without some of its
containment lists. Such an update passes every check on its way, since what is stored is in order, and
it leaves everything as it is: a batch of such updates takes no revision and changes nothing.

A float that is not a number differs from itself, so a concept that holds one counts as changed
whenever it is written. Concepts that are written back are assumed to be `Numeric`.
-/

namespace ConceptLedger

open Step

namespace PropertyValue

/-- A value other than a float that is not a number. -/
def isProper : PropertyValue → Bool
  | float x => !x.isNaN
  | _ => true

theorem agrees_self {v : PropertyValue} (proper : v.isProper = true) : v.agrees v = true := by
  cases v <;> simp_all [agrees, isProper, Binary64.agrees]

end PropertyValue

namespace Concept

/-- Every float in the concept is a number. -/
def Numeric (c : Concept) : Prop := ∀ v ∈ c.properties.values, v.isProper = true

instance (c : Concept) : Decidable c.Numeric :=
  inferInstanceAs (Decidable (∀ v ∈ c.properties.values, v.isProper = true))

namespace Numeric

variable {c : Concept}

theorem sameStateAs_self (numeric : c.Numeric) : c.sameStateAs c = true := by
  have values (l : List PropertyValue) (proper : ∀ v ∈ l, v.isProper = true) :
      (l.zip l).all (fun p => p.1.agrees p.2) = true := by
    induction l with
    | nil => rfl
    | cons v rest ih =>
      rw [List.zip_cons_cons, List.all_cons, ih fun w later => proper w (List.mem_cons_of_mem _ later),
        PropertyValue.agrees_self (proper v List.mem_cons_self)]
      rfl
  simp only [sameStateAs, Properties.agree, values _ numeric, decide_true, Bool.and_self]

theorem optionAgrees_self (numeric : c.Numeric) (name : String) :
    PropertyValue.optionAgrees (c.property? name) (c.property? name) = true := by
  cases held : c.property? name with
  | none => rfl
  | some v =>
    exact PropertyValue.agrees_self
      (numeric v (List.mem_map.mpr ⟨_, SortedMap.find?_eq_some_iff.mp held, rfl⟩))

end Numeric

/-- A concept as it was read: everything is as it is stored, except that containment lists may be left
out. -/
structure AsRead (former c : Concept) : Prop where
  bare : c.bare = former.bare
  given : ∀ name, c.property? name = former.property? name ∨
    c.property? name = none ∧ ∃ q ∈ former.conceptType.containment, q.name = name

/-- A list that was read, or left out, is the stored one when it has been carried over. -/
theorem withStoredList_asRead {former c : Concept} {q : Containment}
    (given : c.property? q.name = former.property? q.name ∨ c.property? q.name = none) :
    ∃ c', withStoredList former c q = .ok c' ∧ c'.bare = c.bare ∧
      c'.property? q.name = former.property? q.name ∧
      ∀ name, name ≠ q.name → c'.property? name = c.property? name := by
  unfold withStoredList
  cases held : c.property? q.name with
  | none =>
    cases stored : former.property? q.name with
    | none => exact ⟨c, rfl, rfl, held, fun _ _ => rfl⟩
    | some value =>
      exact ⟨c.setProperty q.name value, rfl, rfl, property?_setProperty_self _ _ _,
        fun name apart => property?_setProperty_ne c value apart⟩
  | some value =>
    rw [held] at given
    have same := given.resolve_right (Option.some_ne_none value)
    have members : sameMembers (c.members q) (former.members q) = true := by
      rw [members_congr (held.trans same)]
      exact sameMembers_iff.mpr fun _ => Iff.rfl
    exact ⟨c, if_pos members, rfl, held.trans same, fun _ _ => rfl⟩

/-- Whatever lists were left out, all are as they are stored when they have been carried over. -/
theorem foldlM_withStoredList_asRead {former c : Concept} {l : List Containment}
    (bare : c.bare = former.bare)
    (given : ∀ name, c.property? name = former.property? name ∨
      c.property? name = none ∧ ∃ q ∈ l, q.name = name) :
    l.foldlM (withStoredList former) c = .ok former := by
  induction l generalizing c with
  | nil =>
    have same : c = former := eq_of_property? bare fun name =>
      (given name).resolve_right fun ⟨_, _, impossible, _⟩ => nomatch impossible
    rw [same]
    rfl
  | cons q rest ih =>
    obtain ⟨c', run, bare', here, others⟩ :=
      withStoredList_asRead ((given q.name).imp_right And.left)
    rw [List.foldlM_cons, run]
    refine ih (bare'.trans bare) fun name => ?_
    by_cases same : name = q.name
    · subst same
      exact .inl here
    · rw [others name same]
      refine (given name).imp_right fun ⟨absent, r, member, named⟩ => ⟨absent, r, ?_, named⟩
      rcases List.mem_cons.mp member with rfl | later
      · exact absurd named.symm same
      · exact later

namespace AsRead

variable {former c : Concept}

theorem whole : AsRead c c := ⟨rfl, fun _ => .inl rfl⟩

theorem without {q : Containment} (declared : q ∈ c.conceptType.containment) :
    AsRead c (c.unsetProperty q.name) := by
  refine ⟨rfl, fun name => ?_⟩
  have erased : (c.unsetProperty q.name).property? name =
      if name = q.name then none else c.property? name := SortedMap.find?_erase _ _ _
  rw [erased]
  split
  · rename_i same
    exact .inr ⟨rfl, q, declared, same.symm⟩
  · exact .inl rfl

theorem withStoredChildren (read : AsRead former c) :
    Concept.withStoredChildren former c = .ok former := by
  obtain ⟨-, type, -⟩ := bare_eq_iff.mp read.bare
  unfold Concept.withStoredChildren
  rw [type]
  exact foldlM_withStoredList_asRead read.bare read.given

theorem checkShape (read : AsRead former c) (shape : former.checkShape = .ok ()) :
    c.checkShape = .ok () := by
  obtain ⟨-, type, -⟩ := bare_eq_iff.mp read.bare
  obtain ⟨lists, references⟩ := checkShape_ok_iff.mp shape
  refine checkShape_ok_iff.mpr ⟨fun q member => ?_, fun a member => ?_⟩
  · rcases read.given q.name with same | ⟨absent, -⟩
    · rw [same]
      exact lists q (type ▸ member)
    · rw [absent]
      rfl
  · rcases read.given a.name with same | ⟨absent, -⟩
    · rw [same]
      exact references a (type ▸ member)
    · rw [absent]
      rfl

end AsRead

end Concept

namespace Hook

variable {occasion : Occasion} {setting : HookSetting} {s : HookState}

/-- Hooks that have no objection and nothing to add, before a change. -/
theorem runAll_quiet {hooks : List Hook} (before : occasion.phase.isBefore = true)
    (quiet : ∀ hook ∈ hooks, hook occasion setting s = (.ok {}, s)) :
    runAll hooks occasion setting s = (.ok {}, s) := by
  induction hooks with
  | nil => rfl
  | cons hook rest ih =>
    have first : hook.confined occasion setting s = (.ok {}, s) := by
      unfold confined
      rw [quiet hook List.mem_cons_self]
      simp [before]
    exact (bind_of_ok first).trans
      (bind_of_ok (ih fun other later => quiet other (List.mem_cons_of_mem _ later)))

end Hook

/-- The hooks of the standard registry are those of the two kinds of setups. -/
theorem Registry.mem_standard {t : ConceptType} {hook : Hook}
    (member : hook ∈ Registry.standard.hooksFor t) :
    t = .engineeringModelSetup ∧ hook = EngineeringModelSetup.hook ∨
      t = .iterationSetup ∧ hook = IterationSetup.hook := by
  cases t <;> simp_all [Registry.hooksFor, Registry.standard]

open Lifecycle

/-- Nothing of a model's setup is changed. -/
theorem EngineeringModelSetup.beforeUpdate_self (c : Concept) (setting : HookSetting) :
    beforeUpdate c setting c = .ok {} := by
  simp [beforeUpdate]

/-- Nothing of an iteration's setup is changed, if it is not selected and frozen at once. -/
theorem IterationSetup.beforeUpdate_self {c : Concept} {setting : HookSetting} (numeric : c.Numeric)
    (free : isFrozen c = true → isCurrent c.id setting.container = false) :
    beforeUpdate c setting c = .ok {} := by
  have fixed : changedFixed? c c = none := by
    simp [changedFixed?, numeric.optionAgrees_self]
  unfold beforeUpdate
  rw [fixed]
  cases cold : isFrozen c with
  | false => simp
  | true => simp [free cold]

namespace Batch

variable {env : Setting} {p : Partition} {s : State Memory.View} {c former : Concept}

/-- The standard rules let a stored state through as it is. -/
theorem invoke_unchanged (standard : env.registry = Registry.standard) (numeric : c.Numeric)
    {security : SecurityContext} {container : Option Concept}
    (free : c.conceptType = .iterationSetup → isFrozen c = true → isCurrent c.id container = false) :
    ∃ t, invoke env p security (.beforeUpdate c) c container s = (.ok (c, {}), t) ∧
      t.draft = s.draft := by
  have quiet (setting : HookSetting) (held : setting.container = container) :
      env.registry.invoke (.beforeUpdate c) setting { concept := c, ids := s.ids } =
        (.ok {}, { concept := c, ids := s.ids }) := by
    have all : ∀ hook ∈ env.registry.hooksFor c.conceptType,
        hook (.beforeUpdate c) setting { concept := c, ids := s.ids } =
          (.ok {}, { concept := c, ids := s.ids }) := by
      intro hook member
      rw [standard] at member
      rcases Registry.mem_standard member with ⟨-, rfl⟩ | ⟨kind, rfl⟩
      · exact congrArg (·, _) (EngineeringModelSetup.beforeUpdate_self c setting)
      · exact congrArg (·, _) (IterationSetup.beforeUpdate_self numeric (held ▸ free kind))
    exact bind_of_ok (Hook.runAll_quiet rfl all)
  cases ran : invoke env p security (.beforeUpdate c) c container s with
  | mk answer t =>
    refine ⟨t, ?_, invoke_draft ran⟩
    unfold invoke at ran
    split at ran
    · dsimp only at ran
      rw [quiet _ rfl] at ran
      cases ran
      rfl
    · cases ran
      rfl

theorem find_eq (p : Partition) (id : ConceptId) (s : State Memory.View) :
    find p id s = (.ok (s.draft.find? p id), s) := by
  show (ConceptStore.find? s.view p id, s) = _
  rw [Memory.View.find?_eq]
  rfl

theorem containerOf_eq (p : Partition) (c : Concept) (s : State Memory.View) :
    containerOf p c s = (.ok (c.container.bind (s.draft.find? p)), s) := by
  unfold containerOf
  cases c.container with
  | none => rfl
  | some id => exact find_eq p id s

/-- Associations that are as they were are not checked again. -/
theorem requireTargets_unchanged (p : Partition) (numeric : c.Numeric) (s : State Memory.View) :
    requireTargets p c (some c) s = (.ok (), s) := by
  have each (lookup : ConceptId → Except Failure (Option Concept)) (a : Association) :
      requireTargetsOf lookup c (some c) a = .ok () := by
    unfold requireTargetsOf
    cases held : c.property? a.name with
    | none => rfl
    | some value =>
      refine if_pos ?_
      rw [Option.bind_some, held]
      exact held ▸ numeric.optionAgrees_self a.name
  have all (lookup : ConceptId → Except Failure (Option Concept)) (l : List Association) :
      l.forM (requireTargetsOf lookup c (some c)) = .ok () := by
    induction l with
    | nil => rfl
    | cons a rest ih =>
      show (requireTargetsOf lookup c (some c) a).bind (fun _ => rest.forM _) = .ok ()
      rw [each]
      exact ih
  exact congrArg (·, s) (all _ _)

/-- What was read can be written back, and nothing is stored. -/
theorem update_asRead (standard : env.registry = Registry.standard) (midway : Midway s.draft [])
    (stored : s.draft.find? p c.id = some former) (numeric : former.Numeric)
    (read : Concept.AsRead former c)
    (allowed : env.gate.canWrite env.actor former .update p
      (env.gate.contextFor env.actor p (former.container.bind (s.draft.find? p))) = true) :
    ∃ t, update env p c s = (.ok [], t) ∧ t.draft = s.draft := by
  obtain ⟨id, type, revision, container, -⟩ := Concept.bare_eq_iff.mp read.bare
  have required : require p c.id s = (.ok former, s) := by
    refine (bind_of_ok (find_eq p c.id s)).trans ?_
    rw [stored]
    rfl
  have typed : Step.lift (expectType former c.conceptType) s = (.ok (), s) :=
    congrArg (·, s) (if_pos type.symm)
  have placed : Step.lift (expectContainer former c) s = (.ok (), s) :=
    congrArg (·, s) (if_pos container.symm)
  have current : expectRevision p former c s = (.ok (), s) := by
    refine congrArg (·, s) (if_neg ?_)
    simp [revision]
  have shaped : Step.lift c.checkShape s = (.ok (), s) :=
    congrArg (·, s) (read.checkShape (midway.forests p |>.complete _ _ stored).shape)
  have children : Step.lift (Concept.withStoredChildren former c) s = (.ok former, s) :=
    congrArg (·, s) read.withStoredChildren
  have authorized : Step.lift (env.gate.authorize env.actor former .update p
      (env.gate.contextFor env.actor p (former.container.bind (s.draft.find? p)))) s = (.ok (), s) :=
    congrArg (·, s) (if_pos allowed)
  have own : s.draft.find? p former.id = some former := id ▸ stored
  obtain ⟨t, asked, same⟩ := invoke_unchanged (p := p) (s := s) standard numeric
    fun kind cold => midway.not_current own kind cold
  have unwritten : storeChanged p former former t = (.ok (former, false), t) := by
    unfold storeChanged
    rw [numeric.sameStateAs_self]
    rfl
  refine ⟨t, ?_, same⟩
  unfold update
  refine (bind_of_ok required).trans ((bind_of_ok typed).trans ((bind_of_ok placed).trans ?_))
  refine (bind_of_ok current).trans ((bind_of_ok shaped).trans ((bind_of_ok children).trans ?_))
  refine (bind_of_ok (containerOf_eq p former s)).trans ((bind_of_ok authorized).trans ?_)
  refine (bind_of_ok asked).trans ?_
  exact (bind_of_ok (requireTargets_unchanged p numeric t)).trans (bind_of_ok unwritten)

/-- The update of a concept in the way it was read, by an actor who may write it. -/
def WritesBack (env : Setting) (p : Partition) (d : Draft) (operation : Operation) : Prop :=
  ∃ c former, operation = .update c ∧ d.find? p c.id = some former ∧ former.Numeric ∧
    Concept.AsRead former c ∧ env.gate.canWrite env.actor former .update p
      (env.gate.contextFor env.actor p (former.container.bind (d.find? p))) = true

/-- It causes nothing, so that it is done when it has been executed. -/
theorem WritesBack.apply {operation : Operation} (standard : env.registry = Registry.standard)
    (midway : Midway s.draft []) (back : WritesBack env p s.draft operation) :
    ∃ t, Batch.apply env p operation s = (.ok (), t) ∧ t.draft = s.draft := by
  obtain ⟨c, former, rfl, stored, numeric, read, allowed⟩ := back
  obtain ⟨t, run, same⟩ := update_asRead
    (s := { s with journal := s.journal ++ [.executing p (.update c)] }) standard midway stored
    numeric read allowed
  have executed : execute env p (.update c) s = (.ok [], t) := run
  refine ⟨t, ?_, same⟩
  show drain env (env.limit + 1) 0 [(p, .update c)] s = _
  rw [drain]
  refine (bind_of_ok executed).trans ?_
  simp [drain]
  rfl

/-- A batch of such updates leaves the draft as it is. -/
theorem applyAll_writesBack {operations : List Operation}
    (standard : env.registry = Registry.standard) (midway : Midway s.draft [])
    (back : ∀ operation ∈ operations, WritesBack env p s.draft operation) (index : Nat) :
    ∃ t, applyAll env p index operations s = (.ok (), t) ∧ t.draft = s.draft := by
  induction operations generalizing index s with
  | nil => exact ⟨s, rfl, rfl⟩
  | cons operation rest ih =>
    obtain ⟨s₁, first, same⟩ := (back operation List.mem_cons_self).apply standard midway
    have unserved (other : Operation) (member : other ∈ rest) : WritesBack env p s₁.draft other :=
      same ▸ back other (List.mem_cons_of_mem _ member)
    obtain ⟨t, later, same'⟩ := ih (same ▸ midway) unserved (index + 1)
    refine ⟨t, ?_, same'.trans same⟩
    exact (bind_of_ok (mapError_eq_ok_iff.mpr first)).trans later

/-- The outcome of a batch that does nothing. -/
def nothingDone : BatchOutcome :=
  { revision := none, revisions := SortedMap.empty, concepts := [], removed := [] }

theorem finish_untouched (touched : s.draft.touched = []) (taken : s.draft.allocated = SortedMap.empty) :
    finish p s = (.ok nothingDone, s) := by
  have touched : s.touched = [] := touched
  have taken : s.allocated = SortedMap.empty := taken
  have settled : (Step.look fun s : State Memory.View => s.touched.mapM (settle s)) s = (.ok [], s) := by
    show (s.touched.mapM (settle s), s) = _
    rw [touched]
    rfl
  have logged : Step.forEach (logPartition []) (SortedSet.ofMembers []).elements s = (.ok (), s) := rfl
  have allocated : (Step.gets (·.allocated) : BatchStep Memory.View _) s = (.ok .empty, s) :=
    congrArg (Except.ok ·, s) taken
  exact (bind_of_ok settled).trans ((bind_of_ok logged).trans (bind_of_ok allocated))

end Batch

namespace Memory

open Batch

variable {policy : Policy} {request : BatchRequest} {now : Instant} {ids : IdSupply}

/-- After every history under the standard registry, a batch of updates that submit concepts as they
are stored, no float of which fails to be a number, by an actor who may write them, succeeds without
doing anything. -/
theorem write_back_after (visits : List Visit)
    (standard : ∀ v ∈ visits, v.policy.registry = Registry.standard) (policy : Policy)
    (registry : policy.registry = Registry.standard) (request : BatchRequest) (now : Instant)
    (ids : IdSupply) (read : ∀ operation ∈ request.operations,
      ∃ c former, operation = .update c ∧
        (Database.after visits).contents.find? request.partition c.id = some former ∧
        former.Numeric ∧ Concept.AsRead former c ∧
        policy.gate.canWrite request.actor former .update request.partition
          (policy.gate.contextFor request.actor request.partition (former.container.bind
            ((Database.after visits).contents.find? request.partition))) = true) :
    (policy.submit request now ids (Database.after visits)).1.result =
        .ok { revision := none, revisions := SortedMap.empty, concepts := [], removed := [] } ∧
      (policy.submit request now ids (Database.after visits)).2.contents =
        (Database.after visits).contents := by
  have midway : Midway (State.draft { view := (Database.after visits).opened now, ids }) [] :=
    (settled_after visits standard).midway rfl
  have back : ∀ operation ∈ request.operations, WritesBack (policy.settingFor request.actor)
      request.partition (State.draft { view := (Database.after visits).opened now, ids }) operation :=
    read
  obtain ⟨t, applied, same⟩ := applyAll_writesBack registry midway back 0
  have view : t.view = (Database.after visits).opened now := congrArg Draft.view same
  have attempted : (Database.after visits).attempt policy request now ids = (.ok nothingDone, t) :=
    (bind_of_ok applied).trans
      (finish_untouched (congrArg Draft.touched same) (congrArg Draft.allocated same))
  obtain ⟨result, contents⟩ := submit_of_ok (switches_after visits).1 attempted
  exact ⟨result, contents.trans (congrArg View.contents view)⟩

/-- A model is written back without the list of its setups, together with the frozen one of them. -/
theorem write_back_after_iterating : ∃ m frozen : Concept,
    (Database.after [founding, iterating]).contents.find? .siteDirectory (.ofNat 3) = some m ∧
    (Database.after [founding, iterating]).contents.find? .siteDirectory (.ofNat 4) = some frozen ∧
    m.property? Property.iterationSetup ≠ none ∧ isFrozen frozen = true ∧
    (({} : Policy).submit { foundingRequest with operations :=
        [.update (m.unsetProperty Property.iterationSetup), .update frozen] } default ⟨.ofNat, 9⟩
      (Database.after [founding, iterating])).1.result =
        .ok { revision := none, revisions := SortedMap.empty, concepts := [], removed := [] } := by
  have standard : ∀ v ∈ [founding, iterating], v.policy.registry = Registry.standard :=
    founding_standard rfl
  obtain ⟨m, stored, id, numeric, kind, listed, allowed⟩ : ∃ m,
      (Database.after [founding, iterating]).contents.find? .siteDirectory (.ofNat 3) = some m ∧
      m.id = .ofNat 3 ∧ m.Numeric ∧ m.conceptType = .engineeringModelSetup ∧
      m.property? Property.iterationSetup ≠ none ∧
      ({} : Policy).gate.canWrite foundingRequest.actor m .update .siteDirectory
        (({} : Policy).gate.contextFor foundingRequest.actor .siteDirectory (m.container.bind
          ((Database.after [founding, iterating]).contents.find? .siteDirectory))) = true :=
    stored_of_any (by decide +kernel)
  obtain ⟨frozen, stored', id', numeric', cold, allowed'⟩ : ∃ c,
      (Database.after [founding, iterating]).contents.find? .siteDirectory (.ofNat 4) = some c ∧
      c.id = .ofNat 4 ∧ c.Numeric ∧ isFrozen c = true ∧
      ({} : Policy).gate.canWrite foundingRequest.actor c .update .siteDirectory
        (({} : Policy).gate.contextFor foundingRequest.actor .siteDirectory (c.container.bind
          ((Database.after [founding, iterating]).contents.find? .siteDirectory))) = true :=
    stored_of_any (by decide +kernel)
  refine ⟨m, frozen, stored, stored', listed, cold, ?_⟩
  refine (write_back_after [founding, iterating] standard {} rfl _ default ⟨.ofNat, 9⟩ ?_).1
  intro operation member
  have left : Concept.AsRead m (m.unsetProperty Property.iterationSetup) := by
    refine @Concept.AsRead.without m ⟨Property.iterationSetup, .iterationSetup, false⟩ ?_
    rw [kind]
    decide
  rw [← id] at stored
  rw [← id'] at stored'
  rcases List.mem_pair.mp member with rfl | rfl
  · exact ⟨_, m, rfl, stored, numeric, left, allowed⟩
  · exact ⟨_, frozen, rfl, stored', numeric', .whole, allowed'⟩

/-- The float that stands for what is not a number. -/
def notANumber : Binary64 := ⟨false, 2047 * Binary64.binade + Binary64.binade / 2, by decide⟩

/-- The visit that founds a site directory whose mass is not a number. -/
def weighing : Visit :=
  .batch {} { foundingRequest with operations := [
    .create ({ id := .ofNat 2, conceptType := .siteDirectory : Concept }.setProperty "mass"
      (.float notANumber)) none] } default ⟨.ofNat, 3⟩

/-- Written back as it is stored, it counts as changed and takes a revision. In another partition,
where it is not stored, it cannot be written back at all. -/
theorem write_back_after_weighing : weighing.policy.registry = Registry.standard ∧ ∃ c,
    (Database.after [weighing]).contents.find? .siteDirectory (.ofNat 2) = some c ∧
    c.id = .ofNat 2 ∧ (∀ p ∈ [.siteDirectory, .model (.ofNat 5)],
      ({} : Policy).gate.canWrite foundingRequest.actor c .update p .unrestricted = true) ∧
    (({} : Policy).submit { foundingRequest with operations := [.update c] } default ⟨.ofNat, 3⟩
      (Database.after [weighing])).1.result.toOption.map (·.revision) = some (some 2) ∧
    (({} : Policy).submit { foundingRequest with operations := [.update c] } default ⟨.ofNat, 3⟩
      (Database.after [weighing])).2.contents.log.length = 2 ∧
    (({} : Policy).submit { foundingRequest with
        partition := .model (.ofNat 5), operations := [.update c] } default ⟨.ofNat, 3⟩
      (Database.after [weighing])).1.result.toOption.isNone = true :=
  ⟨rfl, stored_of_any (by decide +kernel)⟩

end Memory

end ConceptLedger
