import ConceptLedger.Proofs.Batch.Effect
import ConceptLedger.Proofs.Hook.Steady

/-!
Running a batch on two stores side by side. A comparison is about operations of a certain scope.
Where the calls that such operations make on their views go alike on both stores, and the hooks too,
so does every operation with all its cascades: the same answer or failures that match, and the same
bookkeeping. A store compared with itself shows with what failures an operation can end; two stores
that agree only in one partition are compared over the operations there.
-/

namespace ConceptLedger

namespace Batch

open Step

variable {σ τ : Type}

/-- The state of a batch on another view and with another supply of identifiers. -/
def State.onto (s : State σ) (w : τ) (ids : IdSupply) : State τ :=
  { view := w, ids, touched := s.touched, removed := s.removed
    allocated := s.allocated, notes := s.notes, journal := s.journal }

/-- Two states of a batch that are the same but for their views and supplies. The supplies go
together, and the views too, given the revisions that the batch has taken. -/
def Paired (V : SortedMap Partition UInt64 → σ → τ → Prop) (I : IdSupply → IdSupply → Prop)
    (s : State σ) (t : State τ) : Prop :=
  ∃ w ids, t = s.onto w ids ∧ V s.allocated s.view w ∧ I s.ids ids

/-- The operations that a comparison is about: those in certain partitions, on concepts of certain
types and with only certain times in their payload. -/
structure Scope where
  partitions : Partition → Prop := fun _ => True
  types : ConceptType → Prop := fun _ => True
  times : Instant → Prop := fun _ => True

namespace Scope

variable {S : Scope} {before after : List Cascade}

/-- A concept that an operation of the scope may be on. -/
def Covers (S : Scope) (c : Concept) : Prop := S.types c.conceptType ∧ c.Timely S.times

/-- An operation of the scope, and its place. -/
structure Admits (S : Scope) (entry : Partition × Operation) : Prop where
  inside : S.partitions entry.1
  kind : S.types entry.2.conceptType
  timely : entry.2.Timely S.times

/-- Cascades that stay in the scope when they are caused in it. -/
def Holds (S : Scope) (cascades : List Cascade) : Prop :=
  ∀ p, S.partitions p → ∀ cascade ∈ cascades, S.Admits (place p cascade)

theorem Covers.of_type {c c' : Concept} (covered : S.Covers c)
    (same : c'.conceptType = c.conceptType) (timely : c'.Timely S.times) : S.Covers c' :=
  ⟨same ▸ covered.1, timely⟩

theorem Covers.withStoredChildren {former c c' : Concept} (covered : S.Covers c)
    (stored : former.Timely S.times) (run : Concept.withStoredChildren former c = .ok c') :
    S.Covers c' :=
  covered.of_type (Concept.bare_eq_iff.mp (Concept.withStoredChildren_ok run).1).2.1
    (covered.2.withStoredChildren stored run)

theorem Holds.nil : S.Holds [] := fun _ _ _ impossible => nomatch impossible

theorem Holds.append (first : S.Holds before) (later : S.Holds after) :
    S.Holds (before ++ after) := by
  intro p inside cascade member
  rcases List.mem_append.mp member with here | there
  · exact first p inside cascade here
  · exact later p inside cascade there

end Scope

variable [ConceptStore σ] [ConceptStore τ]

/-- Two stores on which the calls of batches in a scope go alike, as long as all concepts have only
certain times in them. Failures of the ledger's own rules match themselves. -/
structure Simulation (V : SortedMap Partition UInt64 → σ → τ → Prop)
    (E : Failure → Failure → Prop) (S : Scope) (strict : Bool := true) : Prop where
  plain : ∀ f, f.Plain → E f f
  finds : ∀ {taken v w p}, V taken v w → S.partitions p →
    ConceptStore.find? v p = ConceptStore.find? w p
  serves : ∀ {taken v w p}, V taken v w → S.partitions p →
    Serves (Concept.Timely S.times) (ConceptStore.find? v p)
  walks : ∀ {taken v w p}, V taken v w → S.partitions p → ∀ root, subtree v p root = subtree w p root
  writes : ∀ {taken p}, S.partitions p → ∀ {c : Concept}, c.Timely S.times →
    Alike (V taken) E (fun _ => True) (ConceptStore.write p c) (ConceptStore.write p c)
  updates : ∀ {taken p}, S.partitions p → ∀ {c : Concept}, c.Timely S.times →
    Alike (V taken) E (fun _ => True) (ConceptStore.update p c) (ConceptStore.update p c)
  deletes : ∀ {taken p}, S.partitions p → ∀ id,
    Alike (V taken) E (fun _ => True) (ConceptStore.delete p id) (ConceptStore.delete p id)
  /-- A revision is taken once in each partition: on both stores, or taking it fails on the second
  one, and if strict on both. -/
  raises : ∀ {taken v w p}, V taken v w → S.partitions p → taken.find? p = none →
    (∃ r v' w', ConceptStore.nextRevision p v = (.ok r, v') ∧
      ConceptStore.nextRevision p w = (.ok r, w') ∧ V (taken.insert p r) v' w') ∨
    ∃ f w', ConceptStore.nextRevision p w = (.error f, w') ∧ (strict = true →
      ∃ e v', ConceptStore.nextRevision p v = (.error e, v') ∧ E e f ∧ V taken v' w')

/-- Views that tell hooks the same: in every partition, at the same time, and as much. -/
structure Mirroring (V : SortedMap Partition UInt64 → σ → τ → Prop) (T : Instant → Prop) : Prop where
  finds : ∀ {taken v w}, V taken v w → ConceptStore.find? v = ConceptStore.find? w
  serves : ∀ {taken v w}, V taken v w → ∀ p, Serves (Concept.Timely T) (ConceptStore.find? v p)
  clock : ∀ {taken v w}, V taken v w → ConceptStore.time v = ConceptStore.time w
  timely : ∀ {taken v w}, V taken v w → T (ConceptStore.time v)
  size : ∀ {taken v w}, V taken v w → ConceptStore.extent v = ConceptStore.extent w

/-- The hooks of a setting, as far as they are invoked in a scope, go alike on both sides. What they
answer stays in the scope. -/
structure Conducts (env : Setting) (V : SortedMap Partition UInt64 → σ → τ → Prop)
    (I : IdSupply → IdSupply → Prop) (E : Failure → Failure → Prop) (S : Scope) (strict : Bool) :
    Prop where
  invokes : ∀ {p} (security : SecurityContext) (occasion : Occasion) {c : Concept}
    {container : Option Concept}, S.partitions p →
    (∀ former ∈ occasion.former?, former.Timely S.times) → S.Covers c →
    (∀ c ∈ container, c.Timely S.times) →
    Alike (Paired V I) E
      (fun answer : Concept × HookOutcome => S.Covers answer.1 ∧ S.Holds answer.2.cascades)
      (Batch.invoke env p security occasion c container)
      (Batch.invoke env p security occasion c container) strict

section Hooks

variable {V : SortedMap Partition UInt64 → σ → τ → Prop} {E : Failure → Failure → Prop}
  {T : Instant → Prop} {strict : Bool} {env : Setting}

theorem Mirroring.walks (mirroring : Mirroring V T) {taken : SortedMap Partition UInt64} {v : σ}
    {w : τ} (views : V taken v w) (p : Partition) (root : Concept) :
    subtree v p root = subtree w p root := by
  unfold subtree
  rw [mirroring.finds views, mirroring.size views]

/-- Steady hooks go alike where the views tell them the same, whatever they look up. -/
theorem Mirroring.conducts (mirroring : Mirroring V T) {F : Failure → Prop}
    (steady : Hook.Steady T F env.registry.invoke) (matching : ∀ f, F f → E f f) :
    Conducts env V Eq E { times := T } strict := by
  constructor
  rintro p security occasion c container - before ⟨-, timely⟩ around s t ⟨w, _, rfl, views, rfl⟩
  by_cases hooked : env.registry.hasHooks c.conceptType
  · -- hooks run apart from the store, in a setting that both views give them
    let setting : HookSetting :=
      { partition := p, actor := env.actor, time := ConceptStore.time s.view, security, container
        lookup := ConceptStore.find? s.view, extent := ConceptStore.extent s.view }
    have known : setting.Timely T := ⟨mirroring.timely views, around, mirroring.serves views⟩
    have kept := steady occasion setting before known
      { concept := c, ids := s.ids } { concept := c, ids := s.ids } ⟨rfl, timely⟩
    simp only [Batch.invoke, hooked, State.onto, ← mirroring.finds views, ← mirroring.clock views,
      ← mirroring.size views]
    simp only [setting] at kept
    generalize env.registry.invoke occasion _ _ = outcome at kept ⊢
    cases kept with
    | ok good related =>
      obtain ⟨-, still⟩ := related
      have stays : Scope.Holds { times := T } _ := fun _ _ cascade member =>
        ⟨trivial, trivial, good cascade member⟩
      exact .ok ⟨⟨trivial, still⟩, stays⟩ ⟨w, _, rfl, views, rfl⟩
    | error failures related => exact .error (matching _ failures.2) ⟨w, _, rfl, views, rfl⟩
  · simp only [Batch.invoke, hooked]
    exact .ok ⟨⟨trivial, timely⟩, .nil⟩ ⟨w, _, rfl, views, rfl⟩

/-- In a scope of types without hooks nothing is invoked. -/
theorem Conducts.of_hookless {I : IdSupply → IdSupply → Prop} {S : Scope}
    (hookless : ∀ t, S.types t → env.registry.hasHooks t = false) :
    Conducts env V I E S strict := by
  constructor
  intro p security occasion c container _ _ covered _ s t paired
  have unhooked : env.registry.hasHooks c.conceptType = false := hookless _ covered.1
  simp only [Batch.invoke, unhooked, Bool.false_eq_true, if_false]
  exact .ok ⟨covered, .nil⟩ paired

end Hooks

namespace Simulation

variable {V : SortedMap Partition UInt64 → σ → τ → Prop} {I : IdSupply → IdSupply → Prop}
  {E : Failure → Failure → Prop} {S : Scope} {strict : Bool} (sim : Simulation V E S strict)
  {env : Setting} {p : Partition} (inside : S.partitions p)

section Parts

include sim

theorem fault {α : Type} {Q : α → Prop} {f : Fault} (known : ∀ m, f ≠ .internal m) :
    Alike (Paired V I) E Q (Step.fault f) (Step.fault f) strict :=
  .fail (sim.plain _ (Fault.plain known))

theorem lift {α : Type} {Q : α → Prop} {x : Except Failure α} (good : ∀ a, x = .ok a → Q a)
    (plain : Refuses Failure.Plain x) :
    Alike (Paired V I) E Q (Step.lift x) (Step.lift x) strict :=
  .lift good fun e failed => sim.plain e (plain e failed)

include inside

/-- A look-up in the view goes alike. -/
theorem look_find {α : Type} {Q : α → Prop}
    {f : (ConceptId → Except Failure (Option Concept)) → Except Failure α}
    (good : ∀ lookup, Serves (Concept.Timely S.times) lookup → ∀ a, f lookup = .ok a → Q a)
    (plain : ∀ lookup, Serves (Concept.Timely S.times) lookup → Refuses Failure.Plain (f lookup)) :
    Alike (Paired V I) E Q (Step.look fun s : State σ => f (ConceptStore.find? s.view p))
      (Step.look fun t : State τ => f (ConceptStore.find? t.view p)) strict := by
  refine .look ?_
  rintro s t ⟨w, ids, rfl, views, -⟩
  have serves := sim.serves views inside
  refine ⟨by rw [sim.finds views inside]; rfl, good _ serves, ?_⟩
  exact fun e failed => sim.plain e (plain _ serves e failed)

theorem find (id : ConceptId) :
    Alike (Paired V I) E (fun found => ∀ c ∈ found, c.Timely S.times) (Batch.find p id)
      (Batch.find p id) strict := by
  refine sim.look_find inside (f := fun lookup => lookup id) ?_ fun lookup serves =>
    serves.refuses id
  intro lookup serves found answered
  obtain ⟨found', answered', timely⟩ := serves id
  cases answered.symm.trans answered'
  exact timely

theorem require (id : ConceptId) :
    Alike (Paired V I) E (Concept.Timely S.times) (Batch.require p id) (Batch.require p id)
      strict := by
  refine (sim.find inside id).bind fun found timely => ?_
  cases found with
  | some c => exact .pure (timely c rfl)
  | none => exact sim.fault fun m => by simp [missing]

theorem containerOf (c : Concept) :
    Alike (Paired V I) E (fun found => ∀ c ∈ found, c.Timely S.times) (Batch.containerOf p c)
      (Batch.containerOf p c) strict := by
  unfold Batch.containerOf
  cases c.container with
  | some id => exact sim.find inside id
  | none => exact .pure fun _ impossible => nomatch impossible

end Parts

omit [ConceptStore σ] [ConceptStore τ] in
/-- A step on the views alone. -/
theorem onView {α : Type} {Q : α → Prop} {x : Step σ α} {y : Step τ α}
    (alike : ∀ taken, Alike (V taken) E Q x y) :
    Alike (Paired V I) E Q (Batch.onView x) (Batch.onView y) strict := by
  rintro s t ⟨w, ids, rfl, views, supplies⟩
  have outcomes := alike s.allocated s.view w views
  show Matched (Paired V I) E Q ((x s.view).1, { s with view := (x s.view).2 })
    ((y w).1, { s.onto w ids with view := (y w).2 }) strict
  generalize x s.view = outcome at outcomes
  generalize y w = outcome' at outcomes
  cases outcomes with
  | ok good related => exact .ok good ⟨_, ids, rfl, related, supplies⟩
  | error failures related => exact .error failures ⟨_, ids, rfl, related, supplies⟩

omit [ConceptStore σ] [ConceptStore τ] in
theorem report (e : Event) :
    Alike (Paired V I) E (fun _ => True) (Batch.report e) (Batch.report e) strict := by
  refine .modify ?_
  rintro s t ⟨w, ids, rfl, related⟩
  exact ⟨w, ids, rfl, related⟩

omit [ConceptStore σ] [ConceptStore τ] in
theorem touch (id : ConceptId) (existed : Bool) :
    Alike (Paired V I) E (fun _ => True) (Batch.touch p id existed) (Batch.touch p id existed)
      strict := by
  refine .modify ?_
  rintro s t ⟨w, ids, rfl, related⟩
  show Paired V I (if s.isTouched ⟨p, id⟩ then s else _)
    (if s.isTouched ⟨p, id⟩ then s.onto w ids else _)
  split
  · exact ⟨w, ids, rfl, related⟩
  · exact ⟨w, ids, rfl, related⟩

section Operations

include sim

theorem expectRevision (former c : Concept) :
    Alike (Paired V I) E (fun _ => True) (Batch.expectRevision p former c)
      (Batch.expectRevision p former c) strict := by
  refine .look ?_
  rintro s t ⟨w, ids, rfl, -⟩
  refine ⟨rfl, fun _ _ => trivial, fun e failed => sim.plain e ?_⟩
  split at failed
  · cases failed
    exact Fault.plain fun m => by simp
  · cases failed

include inside

theorem ownRevision :
    Alike (Paired V I) E (fun _ => True) (Batch.ownRevision p) (Batch.ownRevision p) strict := by
  rintro s t ⟨w, ids, rfl, views, supplies⟩
  have asked : Step.gets (fun s : State σ => s.allocated.find? p) s =
    (.ok (s.allocated.find? p), s) := rfl
  have asked' : Step.gets (fun t : State τ => t.allocated.find? p) (s.onto w ids) =
    (.ok (s.allocated.find? p), s.onto w ids) := rfl
  unfold Batch.ownRevision
  erw [bind_of_ok asked, bind_of_ok asked']
  cases untaken : s.allocated.find? p with
  | some r => exact .ok trivial ⟨w, ids, rfl, views, supplies⟩
  | none =>
    dsimp only
    -- new to the batch, so the counter is raised on both sides, or not on the second one
    rcases sim.raises views inside untaken with
      ⟨r, v', w', left, right, views'⟩ | ⟨f, w', right, both⟩
    · have first : Batch.onView (ConceptStore.nextRevision p) s =
          (.ok r, { s with view := v' }) := by simp [Batch.onView, zoom, left]
      have second : Batch.onView (ConceptStore.nextRevision p) (s.onto w ids) =
          (.ok r, { s.onto w ids with view := w' }) := by
        simp only [Batch.onView, zoom, State.onto, right]
      rw [bind_of_ok first, bind_of_ok second]
      exact .ok trivial ⟨w', ids, rfl, views', supplies⟩
    · have second : Batch.onView (ConceptStore.nextRevision p) (s.onto w ids) =
          (.error f, { s.onto w ids with view := w' }) := by
        simp only [Batch.onView, zoom, State.onto, right]
      rw [bind_of_error second]
      cases strict with
      | false => exact .alone
      | true =>
        obtain ⟨e, v', left, failures, views'⟩ := both rfl
        have first : Batch.onView (ConceptStore.nextRevision p) s =
            (.error e, { s with view := v' }) := by simp [Batch.onView, zoom, left]
        rw [bind_of_error first]
        exact .error failures ⟨w', ids, rfl, views', supplies⟩

theorem replace {c : Concept} (timely : c.Timely S.times) :
    Alike (Paired V I) E (fun _ => True) (Batch.replace p c) (Batch.replace p c) strict := by
  refine (onView fun _ => sim.updates inside timely).bind fun found _ => ?_
  cases found with
  | true => exact .pure trivial
  | false => exact sim.fault fun m => by simp [missing]

theorem storeChanged (former : Concept) {c : Concept} (covered : S.Covers c) :
    Alike (Paired V I) E (fun stored => S.Covers stored.1) (Batch.storeChanged p former c)
      (Batch.storeChanged p former c) strict := by
  unfold Batch.storeChanged
  split
  · exact .pure covered
  · refine (sim.ownRevision inside).bind fun revision _ => ?_
    refine (touch c.id true).bind fun _ _ => ?_
    have stamped : S.Covers { c with revisionNumber := revision } := covered
    exact (sim.replace inside stamped.2).bind fun _ _ => .pure stamped

theorem requireTargets (c : Concept) (former : Option Concept) :
    Alike (Paired V I) E (fun _ => True) (Batch.requireTargets p c former)
      (Batch.requireTargets p c former) strict := by
  refine sim.look_find inside
    (f := fun lookup => c.conceptType.associations.forM (requireTargetsOf lookup c former))
    (fun _ _ _ _ => trivial) fun lookup serves => ?_
  exact .forM (requireTargetsOf_refuses serves.refuses (fun _ => id) c former) _

theorem containerFor (c : Concept) :
    Alike (Paired V I) E (fun found => ∀ c ∈ found, c.Timely S.times) (Batch.containerFor p c)
      (Batch.containerFor p c) strict := by
  unfold Batch.containerFor
  split
  · exact .pure fun _ impossible => nomatch impossible
  · exact sim.fault fun m => by simp
  · exact sim.fault fun m => by simp
  · refine (sim.find inside _).bind fun found timely => ?_
    cases found with
    | none => exact sim.fault fun m => by simp
    | some container =>
      dsimp only
      split
      · exact .pure timely
      · exact sim.fault fun m => by simp

theorem enterChild (revision : UInt64) (child : Concept) (orderKey : Option Int64)
    {container : Option Concept} (timely : ∀ c ∈ container, c.Timely S.times) :
    Alike (Paired V I) E (fun found => ∀ c ∈ found, c.Timely S.times)
      (Batch.enterChild p revision child orderKey container)
      (Batch.enterChild p revision child orderKey container) strict := by
  cases container with
  | none => exact .pure fun _ impossible => nomatch impossible
  | some parent =>
    refine (touch parent.id true).bind fun _ _ => ?_
    refine (sim.lift (Q := Concept.Timely S.times) (fun extended run => (timely parent rfl).attach run)
      (Concept.attach_plain parent child orderKey)).bind fun extended kept => ?_
    have stamped : Concept.Timely S.times { extended with revisionNumber := revision } := kept
    refine (sim.replace inside stamped).bind fun _ _ => .pure ?_
    rintro c ⟨⟩
    exact stamped

theorem storeNew {c : Concept} (covered : S.Covers c) {container : Option Concept}
    (around : ∀ c ∈ container, c.Timely S.times) (orderKey : Option Int64) :
    Alike (Paired V I) E
      (fun stored : Concept × Option Concept =>
        S.Covers stored.1 ∧ ∀ c ∈ stored.2, c.Timely S.times)
      (Batch.storeNew p c container orderKey) (Batch.storeNew p c container orderKey) strict := by
  refine (sim.ownRevision inside).bind fun revision _ => ?_
  refine (touch c.id false).bind fun _ _ => ?_
  have stamped : S.Covers { c with revisionNumber := revision } := covered
  refine (onView fun _ => sim.writes inside stamped.2).bind fun absent _ => ?_
  cases absent with
  | true =>
    exact (sim.enterChild inside revision _ orderKey around).bind fun container' kept =>
      .pure ⟨stamped, kept⟩
  | false => exact sim.fault fun m => by simp

theorem removeOne (entry : ConceptId × ConceptType) :
    Alike (Paired V I) E (fun _ => True) (Batch.removeOne p entry) (Batch.removeOne p entry)
      strict := by
  refine (touch entry.1 true).bind fun _ _ => ?_
  refine (onView fun _ => sim.deletes inside entry.1).bind fun found _ => ?_
  cases found with
  | true =>
    refine .modify ?_
    rintro s t ⟨w, ids, rfl, related⟩
    exact ⟨w, ids, rfl, related⟩
  | false => exact sim.fault fun m => by simp [missing]

theorem removeAll (root : Concept) :
    Alike (Paired V I) E (fun _ => True) (Batch.removeAll p root) (Batch.removeAll p root)
      strict := by
  refine Alike.bind (Q := fun _ => True) (.look ?_) fun order _ =>
    .forEach fun entry _ => sim.removeOne inside entry
  rintro s t ⟨w, ids, rfl, views, -⟩
  refine ⟨sim.walks views inside root, fun _ _ => trivial, fun e failed => sim.plain e ?_⟩
  exact Refuses.map (walk_refuses (sim.serves views inside).refuses _ root _) e failed

theorem leaveContainer (revision : UInt64) (child : ConceptId) {container : Option Concept}
    (timely : ∀ c ∈ container, c.Timely S.times) :
    Alike (Paired V I) E (fun found => ∀ c ∈ found, c.Timely S.times)
      (Batch.leaveContainer p revision child container)
      (Batch.leaveContainer p revision child container) strict := by
  cases container with
  | none => exact .pure fun _ impossible => nomatch impossible
  | some parent =>
    refine (touch parent.id true).bind fun _ _ => ?_
    have stamped :
        Concept.Timely S.times { parent.detach child with revisionNumber := revision } :=
      (timely parent rfl).detach child
    refine (sim.replace inside stamped).bind fun _ _ => .pure ?_
    rintro c ⟨⟩
    exact stamped

theorem remove (former : Concept) {c : Concept} (covered : S.Covers c) {container : Option Concept}
    (around : ∀ c ∈ container, c.Timely S.times) (directive : Directive) :
    Alike (Paired V I) E
      (fun left : Concept × Option Concept => S.Covers left.1 ∧ ∀ c ∈ left.2, c.Timely S.times)
      (Batch.remove p former c container directive)
      (Batch.remove p former c container directive) strict := by
  unfold Batch.remove
  split
  · exact (sim.storeChanged inside former covered).bind fun stored kept => .pure ⟨kept, around⟩
  · refine (sim.ownRevision inside).bind fun revision _ => ?_
    refine (sim.removeAll inside former).bind fun _ _ => ?_
    exact (sim.leaveContainer inside revision former.id around).bind fun container' kept =>
      .pure ⟨covered, kept⟩

variable (hooks : Conducts env V I E S strict)

include hooks

theorem create {c : Concept} (covered : S.Covers c) (orderKey : Option Int64) :
    Alike (Paired V I) E S.Holds (Batch.create env p c orderKey)
      (Batch.create env p c orderKey) strict := by
  refine (sim.find inside c.id).bind fun found _ => ?_
  cases found with
  | some _ => exact sim.fault fun m => by simp
  | none =>
    refine (sim.containerFor inside c).bind fun container around => ?_
    refine (sim.lift (Q := fun _ => True) (fun _ _ => trivial) c.checkShape_plain).bind
      fun _ _ => ?_
    refine (sim.lift (Q := fun _ => True) (fun _ _ => trivial)
      (Gate.authorize_plain _ _ _ _ _ _)).bind fun _ _ => ?_
    have emptied : S.Covers c.withoutChildren :=
      covered.of_type c.withoutChildren_conceptType covered.2.withoutChildren
    refine (hooks.invokes _ .beforeCreate inside (fun _ impossible => nomatch impossible) emptied
      around).bind ?_
    rintro ⟨c', before⟩ ⟨kept, first⟩
    dsimp only at kept first ⊢
    split
    · exact .pure first
    · refine (sim.requireTargets inside c' none).bind fun _ _ => ?_
      refine (sim.storeNew inside kept around orderKey).bind ?_
      rintro ⟨c'', container'⟩ ⟨kept', around'⟩
      refine (hooks.invokes _ .afterCreate inside (fun _ impossible => nomatch impossible) kept'
        around').bind ?_
      rintro ⟨_, after⟩ ⟨-, later⟩
      exact .pure (first.append later)

theorem update {c : Concept} (covered : S.Covers c) :
    Alike (Paired V I) E S.Holds (Batch.update env p c) (Batch.update env p c) strict := by
  refine (sim.require inside c.id).bind fun former stored => ?_
  have before : ∀ f ∈ some former, f.Timely S.times := by
    rintro f ⟨⟩
    exact stored
  refine (sim.lift (Q := fun _ => True) (fun _ _ => trivial) (expectType_plain _ _)).bind
    fun _ _ => ?_
  refine (sim.lift (Q := fun _ => True) (fun _ _ => trivial) (expectContainer_plain _ _)).bind
    fun _ _ => ?_
  refine (sim.expectRevision former c).bind fun _ _ => ?_
  refine (sim.lift (Q := fun _ => True) (fun _ _ => trivial) c.checkShape_plain).bind fun _ _ => ?_
  refine (sim.lift (Q := S.Covers) (fun c' run => covered.withStoredChildren stored run)
    (Concept.withStoredChildren_plain former c)).bind fun c₁ kept₁ => ?_
  refine (sim.containerOf inside former).bind fun container around => ?_
  refine (sim.lift (Q := fun _ => True) (fun _ _ => trivial)
    (Gate.authorize_plain _ _ _ _ _ _)).bind fun _ _ => ?_
  refine (hooks.invokes _ (.beforeUpdate former) inside before kept₁ around).bind ?_
  rintro ⟨c', answer⟩ ⟨kept, first⟩
  dsimp only at kept first ⊢
  split
  · exact .pure first
  · refine (sim.requireTargets inside c' (some former)).bind fun _ _ => ?_
    refine (sim.storeChanged inside former kept).bind ?_
    rintro ⟨c'', written⟩ kept'
    cases written with
    | true =>
      refine (hooks.invokes _ (.afterUpdate former) inside before kept' around).bind ?_
      rintro ⟨_, after⟩ ⟨-, later⟩
      exact .pure (first.append later)
    | false => exact .pure first

theorem delete {former : Concept} (covered : S.Covers former) :
    Alike (Paired V I) E S.Holds (Batch.delete env p former) (Batch.delete env p former)
      strict := by
  have before : ∀ f ∈ some former, f.Timely S.times := by
    rintro f ⟨⟩
    exact covered.2
  refine (sim.containerOf inside former).bind fun container around => ?_
  refine (sim.lift (Q := fun _ => True) (fun _ _ => trivial)
    (Gate.authorize_plain _ _ _ _ _ _)).bind fun _ _ => ?_
  refine (hooks.invokes _ (.beforeDelete former) inside before covered around).bind ?_
  rintro ⟨c, answer⟩ ⟨kept, first⟩
  dsimp only at kept first ⊢
  split
  · exact .pure first
  · refine (sim.remove inside former kept around answer.directive).bind ?_
    rintro ⟨c', container'⟩ ⟨kept', around'⟩
    refine (hooks.invokes _ (.afterDelete former) inside before kept' around').bind ?_
    rintro ⟨_, after⟩ ⟨-, later⟩
    exact .pure (first.append later)

omit inside

/-- An operation of the scope goes alike on both stores. -/
theorem execute {operation : Operation} (admitted : S.Admits (p, operation)) :
    Alike (Paired V I) E S.Holds (Batch.execute env p operation)
      (Batch.execute env p operation) strict := by
  refine (report _).bind fun _ _ => ?_
  obtain ⟨inside, kind, timely⟩ := admitted
  cases operation with
  | create c orderKey => exact sim.create inside hooks ⟨kind, timely⟩ orderKey
  | update c => exact sim.update inside hooks ⟨kind, timely⟩
  | delete id t =>
    refine (sim.require inside id).bind fun former stored => ?_
    refine (sim.lift (Q := fun _ => former.conceptType = t) (fun _ => expectType_ok)
      (expectType_plain _ _)).bind fun _ same => ?_
    exact sim.delete inside hooks ⟨same.symm ▸ kind, stored⟩

/-- Waiting operations go alike with all their cascades; the induction is on the turns left. -/
theorem drain (turns spawned : Nat) {waiting : List (Partition × Operation)}
    (admitted : ∀ entry ∈ waiting, S.Admits entry) :
    Alike (Paired V I) E (fun _ => True) (Batch.drain env turns spawned waiting)
      (Batch.drain env turns spawned waiting) strict := by
  induction turns generalizing spawned waiting with
  | zero =>
    cases waiting with
    | nil => exact .pure trivial
    | cons entry rest => exact sim.fault fun m => by simp
  | succ turns ih =>
    cases waiting with
    | nil => exact .pure trivial
    | cons entry rest =>
      have first := admitted entry List.mem_cons_self
      refine (sim.execute hooks first).bind fun cascades caused => ?_
      dsimp only
      split
      · exact sim.fault fun m => by simp
      · refine ih _ fun entry' member => ?_
        rcases List.mem_append.mp member with waited | joined
        · exact admitted entry' (List.mem_cons_of_mem _ waited)
        · obtain ⟨cascade, member', rfl⟩ := List.mem_map.mp joined
          exact caused _ first.inside cascade member'

/-- An operation of a batch goes alike with all its cascades. -/
theorem apply {operation : Operation} (admitted : S.Admits (p, operation)) :
    Alike (Paired V I) E (fun _ => True) (Batch.apply env p operation)
      (Batch.apply env p operation) strict := by
  refine sim.drain hooks _ _ fun entry member => ?_
  cases List.mem_singleton.mp member
  exact admitted

/-- The operations of a batch go alike, if failures still match when they are given an index. -/
theorem applyAll (named : ∀ e f index, E e f → E (e.atIndex index) (f.atIndex index))
    (index : Nat) {operations : List Operation}
    (admitted : ∀ operation ∈ operations, S.Admits (p, operation)) :
    Alike (Paired V I) E (fun _ => True) (Batch.applyAll env p index operations)
      (Batch.applyAll env p index operations) strict := by
  induction operations generalizing index with
  | nil => exact .pure trivial
  | cons operation rest ih =>
    refine (Alike.mapError (sim.apply hooks (admitted operation List.mem_cons_self))
      fun e f => named e f index).bind fun _ _ => ?_
    exact ih (index + 1) fun operation' later => admitted operation' (List.mem_cons_of_mem _ later)

end Operations

end Simulation

end Batch

end ConceptLedger
