import ConceptLedger.Proofs.Concept.Refusal
import ConceptLedger.Proofs.Hook.Depth
import ConceptLedger.Proofs.Step.Alike

/-!
Hooks that are steady: given concepts that have only certain times in their properties, they make
of them concepts and cascades with such times, and when they fail, they fail in a certain way. The
rules of both lifecycles are steady; the one time that they set is that of the transaction.
-/

namespace ConceptLedger

/-- The payload of an operation has only certain times in its properties. -/
def Operation.Timely (T : Instant → Prop) : Operation → Prop
  | .create c _ | .update c => c.Timely T
  | .delete _ _ => True

/-- The payloads of cascades have only certain times in their properties. -/
def AllTimely (T : Instant → Prop) (cascades : List Cascade) : Prop :=
  ∀ cascade ∈ cascades, cascade.operation.Timely T

namespace AllTimely

variable {T : Instant → Prop} {cascade : Cascade} {before after : List Cascade}

theorem nil : AllTimely T [] := fun _ impossible => nomatch impossible

theorem cons (first : cascade.operation.Timely T) (later : AllTimely T after) :
    AllTimely T (cascade :: after) := by
  intro other member
  rcases List.mem_cons.mp member with rfl | there
  · exact first
  · exact later other there

theorem append (first : AllTimely T before) (later : AllTimely T after) :
    AllTimely T (before ++ after) := by
  intro cascade member
  rcases List.mem_append.mp member with here | there
  · exact first cascade here
  · exact later cascade there

theorem of_deletions {t : ConceptType}
    (deletions : ∀ x ∈ before, ∃ q id, x = ⟨some q, .delete id t⟩) : AllTimely T before := by
  intro cascade member
  obtain ⟨q, id, rfl⟩ := deletions cascade member
  trivial

end AllTimely

/-- What hooks are told has only certain times in it. -/
structure HookSetting.Timely (T : Instant → Prop) (setting : HookSetting) : Prop where
  time : T setting.time
  container : ∀ c ∈ setting.container, c.Timely T
  serves : ∀ p, Serves (Concept.Timely T) (setting.lookup p)

namespace Hook

open Step

/-- A part of a hook that keeps the concept at hand to certain times, and that fails only in a
certain way. -/
def Keeps {α : Type} (T : Instant → Prop) (F : Failure → Prop) (Q : α → Prop)
    (x : Step HookState α) : Prop :=
  Alike (fun s t => s = t ∧ s.concept.Timely T) (fun e f => e = f ∧ F e) Q x x

/-- A hook that keeps to certain times and fails only in a certain way. -/
def Steady (T : Instant → Prop) (F : Failure → Prop) (hook : Hook) : Prop :=
  ∀ occasion setting, (∀ former ∈ occasion.former?, former.Timely T) → setting.Timely T →
    Keeps T F (fun outcome => AllTimely T outcome.cascades) (hook occasion setting)

variable {T : Instant → Prop} {F : Failure → Prop} {α β : Type} {Q : α → Prop} {Q' : β → Prop}

namespace Keeps

theorem bind {x : Step HookState α} {f : α → Step HookState β} (first : Keeps T F Q x)
    (later : ∀ a, Q a → Keeps T F Q' (f a)) : Keeps T F Q' (x >>= f) := Alike.bind first later

theorem pure {a : α} (good : Q a) : Keeps T F Q (pure a) := Alike.pure good

theorem lift {x : Except Failure α} (good : ∀ a, x = .ok a → Q a) (refuses : Refuses F x) :
    Keeps T F Q (Step.lift x) := Alike.lift good fun e failed => ⟨rfl, refuses e failed⟩

theorem concept : Keeps T F (Concept.Timely T) Hook.concept := by
  refine Alike.gets ?_
  rintro s t ⟨rfl, timely⟩
  exact ⟨rfl, timely⟩

theorem newId : Keeps T F (fun _ => True) Hook.newId := by
  rintro s t ⟨rfl, timely⟩
  exact .ok trivial ⟨rfl, timely⟩

theorem setProperty {name : String} {value : PropertyValue}
    (good : ∀ t, value = .timestamp t → T t) :
    Keeps T F (fun _ => True) (Hook.setProperty name value) := by
  refine Alike.modify ?_
  rintro s t ⟨rfl, timely⟩
  exact ⟨rfl, timely.setProperty good⟩

/-- Steps along a list, each of which starts from what the one before it answered. -/
theorem foldlM {γ : Type} {f : α → γ → Step HookState α} {l : List γ}
    (each : ∀ a c, Q a → Keeps T F Q (f a c)) (a : α) (good : Q a) : Keeps T F Q (l.foldlM f a) := by
  induction l generalizing a with
  | nil => exact pure good
  | cons c rest ih => exact (each a c good).bind fun a' good' => ih a' good'

end Keeps

/-- Where there is always an end, no failure is owed to there being none. -/
theorem Keeps.of_ends {x : Step HookState α} (kept : Keeps T (fun f => F f ∨ f = .endless) Q x)
    (ends : ∀ s, (x s).1 ≠ .error .endless) : Keeps T F Q x := by
  rintro s t related
  have outcomes := kept s t related
  have ends := ends s
  generalize x s = left at outcomes ends
  generalize x t = right at outcomes
  cases outcomes with
  | ok good related => exact .ok good related
  | error failures related =>
    obtain ⟨rfl, known⟩ := failures
    exact .error ⟨rfl, known.resolve_right fun same => ends (congrArg Except.error same)⟩ related

theorem Steady.confined {hook : Hook} (steady : Steady T F hook) : Steady T F hook.confined := by
  rintro occasion setting before known s t ⟨rfl, timely⟩
  have kept := steady occasion setting before known s s ⟨rfl, timely⟩
  unfold Hook.confined
  generalize hook occasion setting s = outcome at kept
  cases kept with
  | ok good related =>
    obtain ⟨-, timely'⟩ := related
    exact .ok good ⟨rfl, by split <;> assumption⟩
  | error failures related =>
    obtain ⟨-, timely'⟩ := related
    exact .error failures ⟨rfl, by split <;> assumption⟩

theorem Steady.runAll {hooks : List Hook} (steady : ∀ hook ∈ hooks, Steady T F hook) :
    Steady T F (Hook.runAll hooks) := by
  intro occasion setting before known
  induction hooks with
  | nil => exact Keeps.pure .nil
  | cons hook rest ih =>
    refine ((steady hook List.mem_cons_self).confined occasion setting before known).bind
      fun first good => ?_
    exact (ih fun hook' later => steady hook' (List.mem_cons_of_mem _ later)).bind
      fun later good' => Keeps.pure (good.append good')

/-- A registry of steady hooks is steady. -/
theorem Steady.registry {r : Registry} (steady : ∀ h ∈ r.hooks, Steady T F h.2) :
    Steady T F r.invoke := by
  intro occasion setting before known
  refine Keeps.concept.bind fun c _ => ?_
  have chosen : ∀ hook ∈ r.hooksFor c.conceptType, Steady T F hook := by
    intro hook member
    obtain ⟨h, listed, rfl⟩ := List.mem_map.mp member
    exact steady h (List.mem_filter.mp listed).1
  refine (Steady.runAll chosen occasion setting before known).bind fun outcome good =>
    Keeps.pure ?_
  split
  · exact good
  · exact good

end Hook

namespace Lifecycle

theorem refuse_plain {α : Type} (c : Concept) (property reason : String) :
    Refuses Failure.Plain (refuse c property reason : Except Failure α) :=
  .fail (Fault.plain fun m => by simp)

theorem modelOf_plain (setup : Concept) : Refuses Failure.Plain (modelOf setup) := by
  unfold modelOf
  split
  · exact .ok
  · exact refuse_plain _ _ _

section Lookups

variable {T : Instant → Prop} {F : Failure → Prop} {setting : HookSetting}
  (known : setting.Timely T)

include known

theorem deletingIfStored_refuses (p : Partition) (id : ConceptId) (t : ConceptType) :
    Refuses F (deletingIfStored setting p id t) := ((known.serves p).refuses id).map

theorem lookupLocal_ok (ids : List ConceptId) :
    ∃ found, setting.lookupLocal ids = .ok found ∧ ∀ c ∈ found, c.Timely T := by
  unfold HookSetting.lookupLocal
  induction ids with
  | nil => exact ⟨[], rfl, fun _ impossible => nomatch impossible⟩
  | cons id rest ih =>
    obtain ⟨found, answered, timely⟩ := known.serves setting.partition id
    obtain ⟨later, answered', timely'⟩ := ih
    cases listed : rest.mapM (setting.lookup setting.partition) with
    | error e =>
      rw [listed] at answered'
      cases answered'
    | ok all =>
      rw [listed] at answered'
      cases answered'
      rw [List.mapM_cons, answered, listed]
      refine ⟨_, rfl, fun c member => ?_⟩
      obtain ⟨entry, inList, same⟩ := List.mem_filterMap.mp member
      rcases List.mem_cons.mp inList with rfl | there
      · exact timely c same
      · exact timely' c (List.mem_filterMap.mpr ⟨entry, there, same⟩)

end Lookups

end Lifecycle

open Lifecycle Hook

variable {T : Instant → Prop} {F : Failure → Prop}

namespace EngineeringModelSetup

variable {former c : Concept} {setting : HookSetting}

theorem beforeUpdate_plain (known : setting.Timely T) :
    Refuses Failure.Plain (beforeUpdate former setting c) := by
  unfold beforeUpdate
  split
  · exact refuse_plain _ _ _
  · dsimp only
    split
    · exact .ok
    · obtain ⟨selected, answered, -⟩ := lookupLocal_ok known
        (c.ref? Property.activeIterationSetup).toList
      rw [answered]
      show Refuses Failure.Plain (if selected.any isFrozen then _ else _)
      split
      · exact refuse_plain _ _ _
      · exact .ok

theorem afterDelete_plain (known : setting.Timely T) :
    Refuses Failure.Plain (afterDelete former setting) :=
  (modelOf_plain former).bind fun _ _ => (deletingIfStored_refuses known _ _ _).map

theorem rootOf_timely (setup : Concept) (model : ConceptId) : (rootOf setup model).Timely T := by
  have bare : Concept.Timely T { id := model, conceptType := .engineeringModel } :=
    fun _ _ impossible => nomatch impossible
  exact bare.setRef

theorem hook_steady (plain : ∀ f, f.Plain → F f) : Steady T F hook := by
  intro occasion setting before known
  cases occasion with
  | beforeCreate =>
    refine Keeps.concept.bind fun c _ => ?_
    have selection : Keeps T F (fun outcome : HookOutcome => AllTimely T outcome.cascades)
        (do Hook.setProperty Property.activeIterationSetup .null; pure {}) :=
      (Keeps.setProperty fun _ other => nomatch other).bind fun _ _ => Keeps.pure .nil
    dsimp only
    split
    · refine Keeps.newId.bind fun id _ => ?_
      exact (Keeps.setProperty fun _ other => nomatch other).bind fun _ _ => selection
    · exact selection
  | afterCreate =>
    refine Keeps.concept.bind fun c _ => Keeps.lift ?_ ?_
    · intro outcome run
      obtain ⟨model, -, rfl⟩ := Except.map_ok run
      exact .cons (rootOf_timely c model) .nil
    · exact fun e failed => plain e ((modelOf_plain c).map e failed)
  | beforeUpdate former =>
    refine Keeps.concept.bind fun c _ => Keeps.lift ?_ ?_
    · intro outcome run
      obtain ⟨rfl, -⟩ := beforeUpdate_ok run
      exact .nil
    · exact fun e failed => plain e (beforeUpdate_plain known e failed)
  | afterUpdate former => exact Keeps.pure .nil
  | beforeDelete former => exact Keeps.pure .nil
  | afterDelete former =>
    refine Keeps.lift ?_ ?_
    · intro outcome run
      rcases afterDelete_ok run with none | ⟨model, -, deletes⟩
      · exact none ▸ .nil
      · exact .of_deletions fun x member => ⟨_, _, List.mem_singleton.mp (deletes ▸ member)⟩
    · exact fun e failed => plain e (afterDelete_plain known e failed)

end EngineeringModelSetup

namespace IterationSetup

variable {setup former c container : Concept} {setting : HookSetting}

theorem neededContainer_plain : Refuses Failure.Plain (neededContainer setup setting) := by
  unfold neededContainer
  split
  · exact .ok
  · exact .fail (Fault.plain fun m => by simp)

theorem siblings_timely (known : setting.Timely T) (setup container : Concept) :
    ∃ prior, siblings setup container setting = .ok prior ∧ ∀ c ∈ prior, c.Timely T :=
  lookupLocal_ok known _

theorem nextNumber_plain (prior : List Concept) :
    Refuses Failure.Plain (nextNumber prior) := by
  unfold nextNumber
  dsimp only
  split
  · rintro e ⟨⟩
    exact Failure.overflow_plain
  · exact .ok

theorem beforeCreate_keeps (plain : ∀ f, f.Plain → F f) (known : setting.Timely T) :
    Keeps T F (fun outcome => AllTimely T outcome.cascades) (beforeCreate setting) := by
  refine Keeps.concept.bind fun c _ => ?_
  refine (Keeps.lift (Q := fun _ => True) (fun _ _ => trivial)
    fun e failed => plain e (neededContainer_plain e failed)).bind fun container _ => ?_
  obtain ⟨prior, answered, -⟩ := siblings_timely known c container
  rw [answered]
  refine (Keeps.lift (Q := fun _ => True) (fun _ _ => trivial) .ok).bind fun prior' _ => ?_
  have numbering : Keeps T F (fun outcome : HookOutcome => AllTimely T outcome.cascades)
      (do
        let number ← Step.lift (nextNumber prior')
        Hook.setProperty Property.iterationNumber (.int number)
        Hook.setProperty Property.isDeleted (.bool false)
        Hook.setProperty Property.frozenOn .null
        Hook.setProperty Property.sourceIterationSetup
          (((latest? prior').map fun s => PropertyValue.ref s.id).getD .null)
        pure {}) := by
    refine (Keeps.lift (Q := fun _ => True) (fun _ _ => trivial)
      fun e failed => plain e (nextNumber_plain prior' e failed)).bind fun number _ => ?_
    refine (Keeps.setProperty fun _ other => nomatch other).bind fun _ _ => ?_
    refine (Keeps.setProperty fun _ other => nomatch other).bind fun _ _ => ?_
    refine (Keeps.setProperty fun _ other => nomatch other).bind fun _ _ => ?_
    refine (Keeps.setProperty fun t other => ?_).bind fun _ _ => Keeps.pure .nil
    cases followed : latest? prior' with
    | none =>
      rw [followed] at other
      cases other
    | some s =>
      rw [followed] at other
      cases other
  dsimp only
  split
  · refine Keeps.newId.bind fun id _ => ?_
    exact (Keeps.setProperty fun _ other => nomatch other).bind fun _ _ => numbering
  · exact numbering

theorem copyOf_timely (timely : c.Timely T) (id parent : ConceptId) :
    (copyOf c id parent).Timely T := by
  have moved : Concept.Timely T { c with id, container := some parent, revisionNumber := 0 } :=
    timely
  exact moved.withoutChildren

theorem iterationOf_timely {previous : Option Concept} (timely : ∀ c ∈ previous, c.Timely T)
    (id model : ConceptId) : (iterationOf setup id model previous).Timely T := by
  cases previous with
  | some c => exact (copyOf_timely (timely c rfl) id model).setRef
  | none =>
    have bare : Concept.Timely T { id, conceptType := .iteration } :=
      fun _ _ impossible => nomatch impossible
    exact (copyOf_timely bare id model).setRef

theorem freezing_timely {time : Instant} (now : T time) {prior : List Concept}
    (timely : ∀ c ∈ prior, c.Timely T) : AllTimely T (freezing time prior) := by
  intro cascade member
  obtain ⟨s, kept, rfl⟩ := List.mem_map.mp member
  have stored := timely s (List.mem_filter.mp kept).1
  refine stored.setProperty ?_
  rintro t ⟨⟩
  exact now

theorem copyContents_keeps (endless : F .endless) (known : setting.Timely T) (p : Partition)
    (depth : Nat) (source : Concept) (parent : ConceptId) :
    Keeps T F (AllTimely T) (copyContents setting p depth source parent) := by
  induction depth generalizing source parent with
  | zero => exact Step.Alike.fail ⟨rfl, endless⟩
  | succ depth ih =>
    refine Keeps.foldlM (fun done entry soFar => ?_) [] .nil
    obtain ⟨found, answered, timely⟩ := known.serves p entry.1
    rw [answered]
    refine (Keeps.lift (Q := fun found => ∀ c ∈ found, c.Timely T) ?_ .ok).bind
      fun found timely => ?_
    · rintro _ ⟨⟩
      exact timely
    · cases found with
      | none => exact Keeps.pure soFar
      | some child =>
        refine Keeps.newId.bind fun id _ => ?_
        refine (ih child id).bind fun inside below => Keeps.pure ?_
        exact soFar.append (.cons (copyOf_timely (timely child rfl) id parent) below)

theorem previousIteration_ok (known : setting.Timely T) (setup : Concept) (model : ConceptId)
    (prior : List Concept) :
    ∃ previous, previousIteration setup model prior setting = .ok previous ∧
      ∀ c ∈ previous, c.Timely T ∧ ∃ x, setting.lookup (.model model) x = .ok (some c) := by
  unfold previousIteration
  dsimp only
  split
  · rename_i x _
    obtain ⟨found, answered, timely⟩ := known.serves (.model model) x
    refine ⟨found, answered, fun c member => ⟨timely c member, x, ?_⟩⟩
    rw [answered, Option.mem_def.mp member]
  · exact ⟨none, rfl, fun _ impossible => nomatch impossible⟩

theorem afterCreate_keeps (plain : ∀ f, f.Plain → F f) (endless : setting.Endless → F .endless)
    (known : setting.Timely T) :
    Keeps T F (fun outcome => AllTimely T outcome.cascades) (afterCreate setting) := by
  refine Keeps.concept.bind fun c timely => ?_
  refine (Keeps.lift (Q := Concept.Timely T)
    (fun container needed => known.container container (neededContainer_ok needed))
    fun e failed => plain e (neededContainer_plain e failed)).bind fun container around => ?_
  refine (Keeps.lift (Q := fun _ => True) (fun _ _ => trivial)
    fun e failed => plain e (modelOf_plain container e failed)).bind fun model _ => ?_
  obtain ⟨prior, answered, stored⟩ := siblings_timely known c container
  rw [answered]
  refine (Keeps.lift (Q := fun prior : List Concept => ∀ c ∈ prior, c.Timely T) ?_ .ok).bind
    fun prior stored => ?_
  · rintro _ ⟨⟩
    exact stored
  · dsimp only
    split
    · rename_i id named
      refine (Keeps.pure (Q := fun _ => True) trivial).bind fun id _ => ?_
      obtain ⟨previous, answered', kept⟩ := previousIteration_ok known c model prior
      rw [answered']
      refine (Keeps.lift (Q := fun found : Option Concept => ∀ c ∈ found, c.Timely T ∧
        ∃ x, setting.lookup (.model model) x = .ok (some c)) ?_ .ok).bind fun previous kept => ?_
      · rintro _ ⟨⟩
        exact kept
      · have selected : (selecting container c).operation.Timely T := around.setRef
        have created : (creating (.model model) (iterationOf c id model previous)
          none).operation.Timely T := iterationOf_timely (fun c here => (kept c here).1) id model
        have together : ∀ contents, AllTimely T contents →
            AllTimely T (selecting container c :: freezing setting.time prior ++
              creating (.model model) (iterationOf c id model previous) none :: contents) :=
          fun contents below =>
            .cons selected ((freezing_timely known.time stored).append (.cons created below))
        cases previous with
        | some source =>
          obtain ⟨x, looked⟩ := (kept source rfl).2
          have copied : Keeps T F (AllTimely T)
              (copyContents setting (.model model) (setting.extent + 1) source id) := by
            by_cases never : setting.Endless
            · exact copyContents_keeps (endless never) known _ _ _ _
            · exact .of_ends (copyContents_keeps (.inr rfl) known _ _ _ _) fun s stuck =>
                never ⟨_, x, source, id, s, looked, stuck⟩
          exact copied.bind fun contents below => Keeps.pure (together contents below)
        | none =>
          exact (Keeps.pure (Q := AllTimely T) .nil).bind fun contents below =>
            Keeps.pure (together contents below)
    · exact (Keeps.lift (Q := fun _ => False) (fun _ impossible => by cases impossible)
        fun e failed => plain e (refuse_plain _ _ _ e failed)).bind fun _ never => never.elim

theorem beforeUpdate_plain : Refuses Failure.Plain (beforeUpdate former setting c) := by
  unfold beforeUpdate
  split
  · exact refuse_plain _ _ _
  · split
    · exact refuse_plain _ _ _
    · split
      · exact refuse_plain _ _ _
      · split
        · exact refuse_plain _ _ _
        · exact .ok

theorem beforeDelete_keeps (plain : ∀ f, f.Plain → F f) :
    Keeps T F (fun outcome => AllTimely T outcome.cascades) (beforeDelete setting) := by
  refine Keeps.concept.bind fun c _ => ?_
  split
  · exact Keeps.lift (fun outcome impossible => nomatch impossible)
      fun e failed => plain e (refuse_plain _ _ _ e failed)
  · exact Step.Alike.fail ⟨rfl, plain _ (Fault.plain fun m => by simp)⟩
  · split
    · exact Keeps.pure .nil
    · exact (Keeps.setProperty fun _ other => nomatch other).bind fun _ _ => Keeps.pure .nil
  · exact Keeps.pure .nil

theorem afterDelete_plain (known : setting.Timely T) :
    Refuses Failure.Plain (afterDelete former setting) := by
  unfold afterDelete
  split
  · exact (modelOf_plain _).bind fun _ _ => (deletingIfStored_refuses known _ _ _).map
  · exact .ok

/-- The rule has an end except after a creation, and there it has one where copies do. -/
theorem hook_keeps {occasion : Occasion} (plain : ∀ f, f.Plain → F f)
    (endless : occasion.phase = .afterCreate → setting.Endless → F .endless)
    (known : setting.Timely T) :
    Keeps T F (fun outcome => AllTimely T outcome.cascades) (hook occasion setting) := by
  cases occasion with
  | beforeCreate => exact beforeCreate_keeps plain known
  | afterCreate => exact afterCreate_keeps plain (endless rfl) known
  | beforeUpdate former =>
    refine Keeps.concept.bind fun c _ => Keeps.lift ?_ ?_
    · intro outcome run
      obtain ⟨rfl, -⟩ := beforeUpdate_ok run
      exact .nil
    · exact fun e failed => plain e (beforeUpdate_plain e failed)
  | afterUpdate former => exact Keeps.pure .nil
  | beforeDelete former => exact beforeDelete_keeps plain
  | afterDelete former =>
    refine Keeps.lift ?_ ?_
    · intro outcome run
      rcases afterDelete_ok run with none | ⟨-, _, model, id, -, -, -, deletes⟩
      · exact none ▸ .nil
      · exact .of_deletions fun x member => ⟨_, _, List.mem_singleton.mp (deletes ▸ member)⟩
    · exact fun e failed => plain e (afterDelete_plain known e failed)

end IterationSetup

/-- The rules of both lifecycles keep to the times that they are given, and fail as the ledger's
own rules do, if they have an end. -/
theorem Registry.standard_steady (plain : ∀ f, f.Plain → F f) (endless : F .endless) :
    Steady T F Registry.standard.invoke := by
  refine Steady.registry fun h member => ?_
  rcases List.mem_cons.mp member with rfl | later
  · exact EngineeringModelSetup.hook_steady plain
  · cases List.mem_singleton.mp later
    exact fun _ _ _ known => IterationSetup.hook_keeps plain (fun _ _ => endless) known

end ConceptLedger
