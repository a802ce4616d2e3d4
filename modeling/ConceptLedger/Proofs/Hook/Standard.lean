import ConceptLedger.Hook.Standard
import ConceptLedger.Proofs.Batch.Effect

/-!
What the rules of the standard registry answer, one statement for each occasion. The rules are run
on a draft through the registry, which asks them only about concepts of their own type.
-/

namespace ConceptLedger

open Step

/-- A concept with an identifier in a property, a new one unless there was one before. -/
def Concept.Named (c named : Concept) (name : String) : Prop :=
  named = c ∨ ∃ id, named = c.setProperty name (.ref id)

/-- A rule that only checks a concept. -/
theorem Hook.check_ok {check : Concept → Except Failure HookOutcome} {s t : HookState}
    {o : HookOutcome} (run : (do Step.lift (check (← Hook.concept))) s = (.ok o, t)) :
    check s.concept = .ok o ∧ s = t := by
  obtain ⟨c, _, asked, rest⟩ := bind_eq_ok_iff.mp run
  obtain ⟨rfl, rfl⟩ := gets_eq_ok_iff.mp asked
  exact lift_eq_ok_iff.mp rest

theorem Lifecycle.deletingIfStored_ok {setting : HookSetting} {q : Partition} {id : ConceptId}
    {t : ConceptType} {cascades : List Cascade}
    (run : deletingIfStored setting q id t = .ok cascades) :
    cascades = [] ∨ cascades = [⟨some q, .delete id t⟩] := by
  obtain ⟨found, -, rfl⟩ := Except.map_ok run
  split
  · exact .inr rfl
  · exact .inl rfl

namespace EngineeringModelSetup

open Lifecycle

variable {setting : HookSetting} {former c : Concept} {s t : HookState} {o : HookOutcome}

theorem beforeCreate_ok (run : beforeCreate s = (.ok o, t)) :
    o = {} ∧ ∃ named, s.concept.Named named Property.engineeringModelIid ∧
      t.concept = named.setProperty Property.activeIterationSetup .null := by
  obtain ⟨c, _, asked, rest⟩ := bind_eq_ok_iff.mp run
  obtain ⟨rfl, rfl⟩ := gets_eq_ok_iff.mp asked
  dsimp only at rest
  split at rest
  · obtain ⟨id, s₁, drawn, rest⟩ := bind_eq_ok_iff.mp rest
    cases drawn
    obtain ⟨_, s₂, named, rest⟩ := bind_eq_ok_iff.mp rest
    obtain ⟨_, s₃, selected, rest⟩ := bind_eq_ok_iff.mp rest
    obtain ⟨rfl, rfl⟩ := pure_eq_ok_iff.mp rest
    refine ⟨rfl, _, .inr ⟨s.ids.next, rfl⟩, ?_⟩
    rw [← modify_eq_ok_iff.mp selected, ← modify_eq_ok_iff.mp named]
  · obtain ⟨_, s₃, selected, rest⟩ := bind_eq_ok_iff.mp rest
    obtain ⟨rfl, rfl⟩ := pure_eq_ok_iff.mp rest
    refine ⟨rfl, _, .inl rfl, ?_⟩
    rw [← modify_eq_ok_iff.mp selected]

theorem modelOf_ok {model : ConceptId} (run : modelOf c = .ok model) :
    c.ref? Property.engineeringModelIid = some model := by
  unfold modelOf at run
  split at run
  · rename_i named
    cases run
    exact named
  · cases run

theorem afterCreate_ok (run : afterCreate c = .ok o) :
    ∃ model, c.ref? Property.engineeringModelIid = some model ∧
      o.cascades = [creating (.model model) (rootOf c model) none] := by
  obtain ⟨model, named, rfl⟩ := Except.map_ok run
  exact ⟨model, modelOf_ok named, rfl⟩

theorem beforeUpdate_ok (run : beforeUpdate former setting c = .ok o) :
    o = {} ∧ c.ref? Property.engineeringModelIid = former.ref? Property.engineeringModelIid ∧
      (c.ref? Property.activeIterationSetup = former.ref? Property.activeIterationSetup ∨
        ∀ id selected, c.ref? Property.activeIterationSetup = some id →
          setting.lookup setting.partition id = .ok (some selected) → isFrozen selected = false) := by
  unfold beforeUpdate at run
  split at run
  · cases run
  rename_i fixed
  have fixed := not_ne_iff.mp fixed
  dsimp only at run
  split at run
  · rename_i same
    cases run
    exact ⟨rfl, fixed, .inl same⟩
  · obtain ⟨selected, found, rest⟩ := Except.bind_ok run
    split at rest
    · cases rest
    · rename_i thawed
      cases rest
      refine ⟨rfl, fixed, .inr fun id setup chosen stored => ?_⟩
      rw [chosen] at found
      simp only [HookSetting.lookupLocal, Option.toList, List.mapM_cons, List.mapM_nil, stored,
        bind, Except.bind, pure, Except.pure, Except.map] at found
      cases found
      simpa using thawed

theorem afterDelete_ok (run : afterDelete former setting = .ok o) :
    o.cascades = [] ∨ ∃ model, former.ref? Property.engineeringModelIid = some model ∧
      o.cascades = [⟨some (.model model), .delete model .engineeringModel⟩] := by
  obtain ⟨model, named, rest⟩ := Except.bind_ok run
  obtain ⟨cascades, deleting, rfl⟩ := Except.map_ok rest
  exact (deletingIfStored_ok deleting).imp id fun deletes => ⟨model, modelOf_ok named, deletes⟩

end EngineeringModelSetup

namespace IterationSetup

open Lifecycle

variable {setting : HookSetting} {former c : Concept} {s t : HookState} {o : HookOutcome}

/-- The source of a new setup: the latest of its siblings, if there are any. -/
def sourceOf (prior : List Concept) : PropertyValue :=
  ((latest? prior).map fun s => PropertyValue.ref s.id).getD .null

/-- A new setup with everything that is assigned to it. -/
def assigned (c : Concept) (number : Int64) (prior : List Concept) : Concept :=
  (((c.setProperty Property.iterationNumber (.int number)).setProperty Property.isDeleted
    (.bool false)).setProperty Property.frozenOn .null).setProperty Property.sourceIterationSetup
      (sourceOf prior)

theorem neededContainer_ok {container : Concept}
    (run : neededContainer c setting = .ok container) : setting.container = some container := by
  unfold neededContainer at run
  split at run
  · rename_i held
    cases run
    exact held
  · cases run

theorem beforeCreate_ok (run : beforeCreate setting s = (.ok o, t)) :
    o = {} ∧ ∃ container prior number named, setting.container = some container ∧
      siblings s.concept container setting = .ok prior ∧ nextNumber prior = .ok number ∧
      s.concept.Named named Property.iterationIid ∧ t.concept = assigned named number prior := by
  obtain ⟨c, _, asked, rest⟩ := bind_eq_ok_iff.mp run
  obtain ⟨rfl, rfl⟩ := gets_eq_ok_iff.mp asked
  obtain ⟨container, needed, rest⟩ := lift_bind_eq_ok_iff.mp rest
  obtain ⟨prior, listed, rest⟩ := lift_bind_eq_ok_iff.mp rest
  -- the same assignments follow whether an identifier was drawn or not
  have assigns : ∀ s₁ : HookState, (do
      let number ← Step.lift (nextNumber prior)
      Hook.setProperty Property.iterationNumber (.int number)
      Hook.setProperty Property.isDeleted (.bool false)
      Hook.setProperty Property.frozenOn .null
      Hook.setProperty Property.sourceIterationSetup (sourceOf prior)
      pure ({} : HookOutcome)) s₁ = (.ok o, t) →
      o = {} ∧ ∃ number, nextNumber prior = .ok number ∧
        t.concept = assigned s₁.concept number prior := by
    intro s₁ rest
    obtain ⟨number, next, rest⟩ := lift_bind_eq_ok_iff.mp rest
    obtain ⟨_, s₂, numbered, rest⟩ := bind_eq_ok_iff.mp rest
    obtain ⟨_, s₃, unmarked, rest⟩ := bind_eq_ok_iff.mp rest
    obtain ⟨_, s₄, thawed, rest⟩ := bind_eq_ok_iff.mp rest
    obtain ⟨_, s₅, sourced, rest⟩ := bind_eq_ok_iff.mp rest
    obtain ⟨rfl, rfl⟩ := pure_eq_ok_iff.mp rest
    refine ⟨rfl, number, next, ?_⟩
    rw [← modify_eq_ok_iff.mp sourced, ← modify_eq_ok_iff.mp thawed,
      ← modify_eq_ok_iff.mp unmarked, ← modify_eq_ok_iff.mp numbered]
    rfl
  dsimp only at rest
  split at rest
  · obtain ⟨id, s₁, drawn, rest⟩ := bind_eq_ok_iff.mp rest
    cases drawn
    obtain ⟨_, s₂, named, rest⟩ := bind_eq_ok_iff.mp rest
    obtain ⟨answer, number, next, result⟩ := assigns s₂ rest
    rw [← modify_eq_ok_iff.mp named] at result
    exact ⟨answer, container, prior, number, _, neededContainer_ok needed, listed, next,
      .inr ⟨s.ids.next, rfl⟩, result⟩
  · obtain ⟨answer, number, next, result⟩ := assigns s rest
    exact ⟨answer, container, prior, number, _, neededContainer_ok needed, listed, next, .inl rfl,
      result⟩

/-- What a step answers when every step of a fold keeps a property of the answer so far. -/
theorem foldlM_keeps {σ α β : Type} {P : β → Prop} {f : β → α → Step σ β} {l : List α} {b r : β}
    {s t : σ} (keeps : ∀ b, ∀ a ∈ l, ∀ s t r, P b → f b a s = (.ok r, t) → P r) (start : P b)
    (run : l.foldlM f b s = (.ok r, t)) : P r := by
  induction l generalizing b s with
  | nil =>
    obtain ⟨rfl, -⟩ := pure_eq_ok_iff.mp run
    exact start
  | cons a rest ih =>
    rw [List.foldlM_cons] at run
    obtain ⟨b', s', first, later⟩ := bind_eq_ok_iff.mp run
    exact ih (fun b a member => keeps b a (List.mem_cons_of_mem _ member))
      (keeps b a List.mem_cons_self s s' b' start first) later

/-- A creation that repeats a concept. -/
def Repeats (p : Partition) (T : Concept → Prop) (x : Cascade) : Prop :=
  ∃ child id parent orderKey, T child ∧ x = creating p (copyOf child id parent) orderKey

/-- Copying contents repeats concepts of a kind that is closed under containment. -/
theorem copyContents_ok {p : Partition} {T : Concept → Prop}
    (closed : ∀ c, T c → ∀ entry ∈ c.conceptType.containment.flatMap c.entries, ∀ child,
      setting.lookup p entry.1 = .ok (some child) → T child)
    {depth : Nat} {source : Concept} {parent : ConceptId} {cascades : List Cascade} (start : T source)
    (run : copyContents setting p depth source parent s = (.ok cascades, t)) :
    ∀ x ∈ cascades, Repeats p T x := by
  induction depth generalizing source parent s t cascades with
  | zero => exact absurd run fail_ne_ok
  | succ depth ih =>
    refine foldlM_keeps (P := fun done => ∀ x ∈ done, Repeats p T x) (b := []) ?_
      (fun x member => nomatch member) run
    intro done entry listed s₁ s₂ r before step
    obtain ⟨found, looked, rest⟩ := lift_bind_eq_ok_iff.mp step
    cases found with
    | none =>
      obtain ⟨rfl, -⟩ := pure_eq_ok_iff.mp rest
      exact before
    | some child =>
      have inner := closed source start entry listed child looked
      obtain ⟨id, s₃, drawn, rest⟩ := bind_eq_ok_iff.mp rest
      obtain ⟨inside, s₄, copied, rest⟩ := bind_eq_ok_iff.mp rest
      obtain ⟨rfl, -⟩ := pure_eq_ok_iff.mp rest
      intro x member
      rcases List.mem_append.mp member with old | new
      · exact before x old
      · rcases List.mem_cons.mp new with rfl | deeper
        · exact ⟨child, id, parent, entry.2, inner, rfl⟩
        · exact ih inner copied x deeper

/-- The creations that repeat the contents of an iteration, if there is one, under a new parent. -/
def copies (setting : HookSetting) (p : Partition) (parent : ConceptId) :
    Option Concept → Step HookState (List Cascade)
  | some previous => copyContents setting p (setting.extent + 1) previous parent
  | none => pure []

/-- What a new setup causes: it is selected, its siblings are frozen, and its iteration is created
with the contents of the previous one. -/
structure Begins (setting : HookSetting) (setup container : Concept) (prior : List Concept)
    (model id : ConceptId) (previous : Option Concept) (contents cascades : List Cascade) : Prop where
  held : setting.container = some container
  listed : siblings setup container setting = .ok prior
  owner : container.ref? Property.engineeringModelIid = some model
  named : setup.ref? Property.iterationIid = some id
  follows : previousIteration setup model prior setting = .ok previous
  copied : ∃ s t, copies setting (.model model) id previous s = (.ok contents, t)
  caused : cascades = selecting container setup :: freezing setting.time prior ++
    creating (.model model) (iterationOf setup id model previous) none :: contents

theorem afterCreate_ok (run : afterCreate setting s = (.ok o, t)) :
    ∃ container prior model id previous contents,
      Begins setting s.concept container prior model id previous contents o.cascades := by
  obtain ⟨c, _, asked, rest⟩ := bind_eq_ok_iff.mp run
  obtain ⟨rfl, rfl⟩ := gets_eq_ok_iff.mp asked
  obtain ⟨container, needed, rest⟩ := lift_bind_eq_ok_iff.mp rest
  obtain ⟨model, owner, rest⟩ := lift_bind_eq_ok_iff.mp rest
  obtain ⟨prior, listed, rest⟩ := lift_bind_eq_ok_iff.mp rest
  dsimp only at rest
  cases named : s.concept.ref? Property.iterationIid with
  | none =>
    rw [named] at rest
    obtain ⟨id, _, lifted, -⟩ := bind_eq_ok_iff.mp rest
    exact nomatch (lift_eq_ok_iff.mp lifted).1
  | some id =>
    rw [named] at rest
    obtain ⟨_, _, same, rest⟩ := bind_eq_ok_iff.mp rest
    obtain ⟨rfl, rfl⟩ := pure_eq_ok_iff.mp same
    obtain ⟨previous, follows, rest⟩ := lift_bind_eq_ok_iff.mp rest
    have copying : ∃ contents s₁, copies setting (.model model) id previous s = (.ok contents, s₁) ∧
        (pure { cascades := selecting container s.concept :: freezing setting.time prior ++
          creating (.model model) (iterationOf s.concept id model previous) none :: contents } :
            Step HookState HookOutcome) s₁ = (.ok o, t) := by
      cases previous with
      | none =>
        obtain ⟨contents, _, empty, rest⟩ := bind_eq_ok_iff.mp rest
        exact ⟨contents, _, empty, rest⟩
      | some source =>
        obtain ⟨contents, _, copied, rest⟩ := bind_eq_ok_iff.mp rest
        exact ⟨contents, _, copied, rest⟩
    obtain ⟨contents, s₁, copied, rest⟩ := copying
    obtain ⟨rfl, rfl⟩ := pure_eq_ok_iff.mp rest
    exact ⟨container, prior, model, id, previous, contents, neededContainer_ok needed, listed,
      EngineeringModelSetup.modelOf_ok owner, named, follows, ⟨_, _, copied⟩, rfl⟩

/-- Behind the updates that a new setup causes there are only creations. -/
theorem Begins.creates {container setup : Concept} {prior : List Concept} {model id : ConceptId}
    {previous : Option Concept} {contents cascades : List Cascade}
    (begins : Begins setting setup container prior model id previous contents cascades) :
    ∀ x ∈ creating (.model model) (iterationOf setup id model previous) none :: contents,
      ∃ c orderKey, x = creating (.model model) c orderKey := by
  intro x member
  rcases List.mem_cons.mp member with rfl | copy
  · exact ⟨_, _, rfl⟩
  · obtain ⟨s, t, run⟩ := begins.copied
    cases previous with
    | none =>
      obtain ⟨rfl, -⟩ := pure_eq_ok_iff.mp run
      cases copy
    | some source =>
      obtain ⟨child, new, parent, orderKey, -, rfl⟩ :=
        copyContents_ok (T := fun _ => True) (fun _ _ _ _ _ _ => trivial) trivial run x copy
      exact ⟨_, orderKey, rfl⟩

/-- What an update of a setup may do. -/
structure Permitted (former c : Concept) (container : Option Concept) : Prop where
  fixed : ∀ name ∈ fixedProperties,
    PropertyValue.optionAgrees (c.property? name) (former.property? name) = true
  current : isFrozen c = true → isCurrent c.id container = false
  frozen : isFrozen former = true → isFrozen c = true
  deleted : c.isSoftDeleted = former.isSoftDeleted

theorem beforeUpdate_ok (run : beforeUpdate former setting c = .ok o) :
    o = {} ∧ Permitted former c setting.container := by
  unfold beforeUpdate at run
  split at run
  · cases run
  rename_i same
  split at run
  · cases run
  rename_i current
  split at run
  · cases run
  rename_i frozen
  split at run
  · cases run
  rename_i deleted
  cases run
  refine ⟨rfl, ?_, ?_, ?_, ?_⟩
  · intro name member
    simpa using List.find?_eq_none.mp same name member
  · intro cold
    simpa [cold] using current
  · intro cold
    simpa [cold] using frozen
  · simpa using deleted

theorem beforeDelete_ok (run : beforeDelete setting s = (.ok o, t)) :
    isCurrent s.concept.id setting.container = false ∧
      ((isFrozen s.concept = false ∧ o = {} ∧ t.concept = s.concept) ∨
        (isFrozen s.concept = true ∧ o = { directive := .skip } ∧ t.concept = s.concept ∧
          s.concept.isSoftDeleted = true) ∨
        (isFrozen s.concept = true ∧ o = { directive := .convertToUpdate } ∧
          t.concept = s.concept.setProperty Property.isDeleted (.bool true) ∧
          s.concept.isSoftDeleted = false)) := by
  obtain ⟨c, _, asked, rest⟩ := bind_eq_ok_iff.mp run
  obtain ⟨rfl, rfl⟩ := gets_eq_ok_iff.mp asked
  cases current : isCurrent s.concept.id setting.container <;>
    cases frozen : isFrozen s.concept <;> rw [current, frozen] at rest
  · obtain ⟨rfl, rfl⟩ := pure_eq_ok_iff.mp rest
    exact ⟨rfl, .inl ⟨rfl, rfl, rfl⟩⟩
  · dsimp only at rest
    split at rest
    · rename_i deleted
      obtain ⟨rfl, rfl⟩ := pure_eq_ok_iff.mp rest
      exact ⟨rfl, .inr (.inl ⟨rfl, rfl, rfl, deleted⟩)⟩
    · rename_i there
      obtain ⟨_, s₁, marked, rest⟩ := bind_eq_ok_iff.mp rest
      obtain ⟨rfl, rfl⟩ := pure_eq_ok_iff.mp rest
      rw [← modify_eq_ok_iff.mp marked]
      exact ⟨rfl, .inr (.inr ⟨rfl, rfl, rfl, Bool.not_eq_true _ ▸ there⟩)⟩
  · exact absurd rest fault_ne_ok
  · exact nomatch (lift_eq_ok_iff.mp rest).1

theorem afterDelete_ok (run : afterDelete former setting = .ok o) :
    o.cascades = [] ∨ (isFrozen former = false ∧ ∃ container model id,
      setting.container = some container ∧ container.ref? Property.engineeringModelIid = some model ∧
      former.ref? Property.iterationIid = some id ∧
      o.cascades = [⟨some (.model model), .delete id .iteration⟩]) := by
  unfold afterDelete at run
  split at run
  · rename_i container id warm held named
    obtain ⟨model, owner, rest⟩ := Except.bind_ok run
    obtain ⟨cascades, deleting, rfl⟩ := Except.map_ok rest
    exact (deletingIfStored_ok deleting).imp (fun none => none) fun deletes =>
      ⟨warm, container, model, id, held, EngineeringModelSetup.modelOf_ok owner, named, deletes⟩
  · cases run
    exact .inl rfl

end IterationSetup

namespace Batch

/-- What hooks are told about a change to a draft. -/
def Draft.hookSetting (d : Draft) (env : Setting) (p : Partition) (security : SecurityContext)
    (container : Option Concept) : HookSetting :=
  { partition := p, actor := env.actor, time := d.view.time, security, container
    lookup := fun q id => .ok (d.find? q id), extent := ConceptStore.extent d.view }

variable {env : Setting} {p : Partition} {d : Draft} {security : SecurityContext}
  {occasion : Occasion} {c c' : Concept} {container : Option Concept} {outcome : HookOutcome}

/-- A type without hooks leaves everything as it is. -/
theorem Hooked.of_none (none : env.registry.hooksFor c.conceptType = [])
    (hooked : Hooked env p d security occasion c container c' outcome) : c' = c ∧ outcome = {} := by
  obtain ⟨s, t, -, run⟩ := hooked
  unfold invoke at run
  simp only [Registry.hasHooks, none, List.isEmpty_nil, Bool.not_true, Bool.false_eq_true,
    if_false] at run
  cases run
  exact ⟨rfl, rfl⟩

/-- What a single hook answers: the concept as the hook leaves it and its outcome. After a change the
concept stays as it was stored and only the cascades count. -/
def Answers (hook : Hook) (occasion : Occasion) (setting : HookSetting) (c c' : Concept)
    (outcome : HookOutcome) : Prop :=
  ∃ s t o, s.concept = c ∧ hook occasion setting s = (.ok o, t) ∧ outcome.cascades = o.cascades ∧
    if occasion.phase.isBefore then c' = t.concept ∧ outcome = o else c' = c

/-- With a single hook, its answer is the answer of the registry. -/
theorem Hooked.of_single {hook : Hook} (single : env.registry.hooksFor c.conceptType = [hook])
    (hooked : Hooked env p d security occasion c container c' outcome) :
    Answers hook occasion (d.hookSetting env p security container) c c' outcome := by
  obtain ⟨s, t, rfl, run⟩ := hooked
  unfold invoke at run
  simp only [Registry.hasHooks, single, List.isEmpty_cons, Bool.not_false, if_true] at run
  have lookup : ConceptStore.find? s.view = fun q id => .ok (s.draft.find? q id) := by
    funext q id
    exact Memory.View.find?_eq s.view q id
  rw [lookup] at run
  obtain ⟨o', result, same⟩ := Except.map_ok (congrArg Prod.fst run)
  obtain ⟨h, answered, rfl, rfl⟩ : ∃ h,
      env.registry.invoke occasion (s.draft.hookSetting env p security container)
        { concept := c, ids := s.ids } = (.ok o', h) ∧ h.concept = c' ∧ o' = outcome :=
    ⟨_, Prod.ext result rfl, congrArg Prod.fst same, congrArg Prod.snd same⟩
  obtain ⟨_, _, asked, rest⟩ := bind_eq_ok_iff.mp answered
  obtain ⟨rfl, rfl⟩ := gets_eq_ok_iff.mp asked
  obtain ⟨merged, _, all, rest⟩ := bind_eq_ok_iff.mp rest
  obtain ⟨rfl, rfl⟩ := pure_eq_ok_iff.mp rest
  rw [single] at all
  obtain ⟨o, _, first, rest⟩ := bind_eq_ok_iff.mp all
  obtain ⟨_, _, last, rest⟩ := bind_eq_ok_iff.mp rest
  obtain ⟨rfl, rfl⟩ := pure_eq_ok_iff.mp last
  obtain ⟨rfl, rfl⟩ := pure_eq_ok_iff.mp rest
  have merges : o.merge {} = o := by
    obtain ⟨directive, cascades⟩ := o
    cases directive <;> simp [HookOutcome.merge, Directive.strongest]
  rw [merges]
  generalize told : hook occasion (s.draft.hookSetting env p security container)
    { concept := c, ids := s.ids } = result
  obtain ⟨r, t'⟩ := result
  unfold Hook.confined at first
  rw [told] at first
  cases first
  refine ⟨{ concept := c, ids := s.ids }, t', o, rfl, told, ?_, ?_⟩
  · split <;> rfl
  · split <;> simp

theorem hooksFor_other {t : ConceptType} (first : t ≠ .engineeringModelSetup)
    (second : t ≠ .iterationSetup) : Registry.standard.hooksFor t = [] := by
  cases t <;> first | rfl | contradiction

theorem Hooked.iterationSetup (standard : env.registry = Registry.standard)
    (kind : c.conceptType = .iterationSetup)
    (hooked : Hooked env p d security occasion c container c' outcome) :
    Answers IterationSetup.hook occasion (d.hookSetting env p security container) c c' outcome :=
  hooked.of_single (by rw [standard, kind]; rfl)

/-- The standard registry asks the rules of the two kinds of setups, and no others. -/
theorem Hooked.standard_cases (standard : env.registry = Registry.standard)
    (hooked : Hooked env p d security occasion c container c' outcome) :
    (c.conceptType = .engineeringModelSetup ∧
      Answers EngineeringModelSetup.hook occasion (d.hookSetting env p security container) c c'
        outcome) ∨
    (c.conceptType = .iterationSetup ∧
      Answers IterationSetup.hook occasion (d.hookSetting env p security container) c c' outcome) ∨
    (c.conceptType ≠ .engineeringModelSetup ∧ c.conceptType ≠ .iterationSetup ∧ c' = c ∧
      outcome = {}) := by
  by_cases model : c.conceptType = .engineeringModelSetup
  · exact .inl ⟨model, hooked.of_single (by rw [standard, model]; rfl)⟩
  · by_cases iteration : c.conceptType = .iterationSetup
    · exact .inr (.inl ⟨iteration, hooked.iterationSetup standard iteration⟩)
    · exact .inr (.inr ⟨model, iteration,
        hooked.of_none (by rw [standard]; exact hooksFor_other model iteration)⟩)

end Batch

end ConceptLedger
