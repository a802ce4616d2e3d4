import ConceptLedger.Proofs.Batch.Causes
import ConceptLedger.Proofs.Concept.Refusal
import ConceptLedger.Store.Call

/-!
When an operation comes to no end. What it checks, stores and removes is finite. The rest is done by
hooks, whose rules are of any kind, and by calls of the store. An operation without an end is one in
which some hook that it asks does not return, if the calls of the store do.
-/

namespace ConceptLedger

theorem Fault.ends (f : Fault) : f.failure.kind ≠ .endless := by
  cases f <;> simp [failure]

/-- A hook of those that fail together fails in this way. -/
theorem Hook.runAll_error {hooks : List Hook} {occasion : Occasion} {setting : HookSetting}
    {f : Failure} {s t : HookState} (run : runAll hooks occasion setting s = (.error f, t)) :
    ∃ hook ∈ hooks, ∃ h h', hook occasion setting h = (.error f, h') := by
  induction hooks generalizing s with
  | nil => cases run
  | cons hook rest ih =>
    cases asked : hook.confined occasion setting s with
    | mk answer u =>
      cases answer with
      | error f' =>
        cases (Step.bind_of_error asked).symm.trans run
        cases own : hook occasion setting s with
        | mk answer h' =>
          unfold confined at asked
          rw [own] at asked
          cases (Prod.mk.inj asked).1
          exact ⟨hook, List.mem_cons_self, s, h', own⟩
      | ok first =>
        have run := (Step.bind_of_ok asked).symm.trans run
        cases others : runAll rest occasion setting u with
        | mk answer v =>
          cases answer with
          | error f' =>
            cases (Step.bind_of_error others).symm.trans run
            obtain ⟨other, later, fails⟩ := ih others
            exact ⟨other, List.mem_cons_of_mem _ later, fails⟩
          | ok later => cases (Step.bind_of_ok others).symm.trans run

namespace Step

variable {σ τ α β : Type}

/-- If a step has no end, then for some other reason, or because of a state that it reaches. -/
def HangsOnly (X : Prop) (P : σ → Prop) (x : Step σ α) (s : σ) : Prop :=
  ∀ f t, x s = (.error f, t) → f.kind = .endless → X ∨ P t

/-- If a failure stands for there being no end, then there is another reason. -/
def Excused (X : Prop) (f : Failure) : Prop := f.kind = .endless → X

theorem Excused.of_plain {X : Prop} {f : Failure} (plain : f.Plain) : Excused X f :=
  fun endless => absurd endless plain.ends

namespace HangsOnly

variable {X : Prop} {P Q : σ → Prop} {x : Step σ α} {f : α → Step σ β} {s : σ}

theorem pure {a : α} : HangsOnly X P (pure a) s := fun _ _ impossible => nomatch impossible

theorem fail {e : Failure} (excused : Excused X e) : HangsOnly X P (Step.fail e : Step σ α) s := by
  intro f t failed endless
  cases (Prod.mk.inj failed).1
  exact .inl (excused endless)

theorem fault {g : Fault} : HangsOnly X P (Step.fault g : Step σ α) s :=
  fail fun endless => absurd endless g.ends

theorem modify {g : σ → σ} : HangsOnly X P (Step.modify g) s :=
  fun _ _ impossible => nomatch impossible

theorem gets {g : σ → α} : HangsOnly X P (Step.gets g) s := fun _ _ impossible => nomatch impossible

theorem look {g : σ → Except Failure α} (refuses : Refuses (Excused X) (g s)) :
    HangsOnly X P (Step.look g) s := fun f _ failed endless =>
  .inl (refuses f (Prod.mk.inj failed).1 endless)

theorem lift {y : Except Failure α} (refuses : Refuses Failure.Plain y) :
    HangsOnly X P (Step.lift y) s := look fun e failed => .of_plain (refuses e failed)

theorem bind (first : HangsOnly X P x s)
    (later : ∀ a t, x s = (.ok a, t) → HangsOnly X P (f a) t) : HangsOnly X P (x >>= f) s := by
  intro e t failed endless
  cases run : x s with
  | mk answer u =>
    cases answer with
    | error e' =>
      cases (bind_of_error run).symm.trans failed
      exact first _ _ run endless
    | ok a => exact later a u run e t ((bind_of_ok run).symm.trans failed) endless

theorem imp (hangs : HangsOnly X P x s) (weaker : ∀ t, P t → Q t) : HangsOnly X Q x s :=
  fun f t failed endless => (hangs f t failed endless).imp_right (weaker t)

theorem forEach {g : α → Step σ Unit} (each : ∀ a s, HangsOnly X P (g a) s) (l : List α) :
    HangsOnly X P (Step.forEach g l) s := by
  induction l generalizing s with
  | nil => exact pure
  | cons a rest ih => exact (each a s).bind fun _ _ _ => ih

end HangsOnly

end Step

namespace Batch

open Step

/-- Some call of a store does not return. -/
def Stalls (σ : Type) [ConceptStore σ] : Prop :=
  ∃ (call : StoreCall) (v w : σ) (f : Failure), call.run v = (.error f, w) ∧ f.kind = .endless

variable {σ α : Type} [ConceptStore σ]

/-- A call that fails does so as data too. -/
theorem Stalls.of_call {x : Step σ α} {g : α → StoreAnswer} {call : StoreCall} {f : Failure} {v w : σ}
    (made : call.run = g <$> x) (run : x v = (.error f, w)) (endless : f.kind = .endless) : Stalls σ :=
  ⟨call, v, w, f, made ▸ bind_of_error run, endless⟩

theorem find?_excused (v : σ) (p : Partition) (id : ConceptId) :
    Refuses (Excused (Stalls σ)) (ConceptStore.find? v p id) := by
  intro f failed endless
  have looked : Step.look (fun v : σ => ConceptStore.find? v p id) v = (.error f, v) :=
    congrArg (·, v) failed
  have made : (StoreCall.find p id).run =
      StoreAnswer.concept <$> Step.look fun v : σ => ConceptStore.find? v p id := rfl
  exact .of_call made looked endless

/-- A call on the view that is one of the calls of a store. -/
theorem onView_hangs {P : State σ → Prop} {s : State σ} {x : Step σ α} {g : α → StoreAnswer}
    (call : StoreCall) (made : call.run = g <$> x) : HangsOnly (Stalls σ) P (onView x) s := by
  intro f t failed endless
  cases run : x s.view with
  | mk answer w =>
    unfold onView zoom at failed
    rw [run] at failed
    cases (Prod.mk.inj failed).1
    exact .inl (.of_call made run endless)

section Parts

variable {env : Setting} {p : Partition} {P : State σ → Prop} {s : State σ}

theorem find_hangs (id : ConceptId) : HangsOnly (Stalls σ) P (find p id) s := .look (find?_excused _ _ _)

theorem require_hangs (id : ConceptId) : HangsOnly (Stalls σ) P (require p id) s := by
  refine (find_hangs id).bind fun found t _ => ?_
  cases found with
  | none => exact .fault
  | some c => exact .pure

theorem containerOf_hangs (c : Concept) : HangsOnly (Stalls σ) P (containerOf p c) s := by
  unfold containerOf
  split
  · exact find_hangs _
  · exact .pure

theorem containerFor_hangs (c : Concept) : HangsOnly (Stalls σ) P (containerFor p c) s := by
  unfold containerFor
  split
  · exact .pure
  · exact .fault
  · exact .fault
  · refine (find_hangs _).bind fun found t _ => ?_
    cases found with
    | none => exact .fault
    | some container =>
      dsimp only
      split
      · exact .pure
      · exact .fault

theorem requireTargets_hangs (c : Concept) (former : Option Concept) :
    HangsOnly (Stalls σ) P (requireTargets p c former) s :=
  .look (.forM (requireTargetsOf_refuses (find?_excused s.view p) (fun _ => .of_plain) c former) _)

theorem ownRevision_hangs : HangsOnly (Stalls σ) P (ownRevision p) s := by
  refine HangsOnly.gets.bind fun taken t _ => ?_
  cases taken with
  | some r => exact .pure
  | none =>
    exact (onView_hangs (.nextRevision p) rfl).bind fun r t _ =>
      HangsOnly.modify.bind fun _ _ _ => .pure

theorem replace_hangs (c : Concept) : HangsOnly (Stalls σ) P (replace p c) s := by
  refine (onView_hangs (.update p c) rfl).bind fun found t _ => ?_
  split
  · exact .pure
  · exact .fault

theorem storeChanged_hangs (former c : Concept) : HangsOnly (Stalls σ) P (storeChanged p former c) s := by
  unfold storeChanged
  split
  · exact .pure
  · exact ownRevision_hangs.bind fun r _ _ => HangsOnly.modify.bind fun _ _ _ =>
      (replace_hangs _).bind fun _ _ _ => .pure

theorem enterChild_hangs (r : UInt64) (child : Concept) (orderKey : Option Int64)
    (container : Option Concept) : HangsOnly (Stalls σ) P (enterChild p r child orderKey container) s := by
  cases container with
  | none => exact .pure
  | some parent =>
    exact HangsOnly.modify.bind fun _ _ _ =>
      (HangsOnly.lift (Concept.attach_plain parent child orderKey)).bind fun extended _ _ =>
        (replace_hangs _).bind fun _ _ _ => .pure

theorem storeNew_hangs (c : Concept) (container : Option Concept) (orderKey : Option Int64) :
    HangsOnly (Stalls σ) P (storeNew p c container orderKey) s := by
  refine ownRevision_hangs.bind fun r _ _ => HangsOnly.modify.bind fun _ _ _ => ?_
  refine (onView_hangs (.write p _) rfl).bind fun fresh t _ => ?_
  split
  · exact (enterChild_hangs r _ orderKey container).bind fun _ _ _ => .pure
  · exact .fault

theorem removeAll_hangs (root : Concept) : HangsOnly (Stalls σ) P (removeAll p root) s := by
  have collects : Refuses (Excused (Stalls σ)) (subtree s.view p root) :=
    .map (walk_refuses (find?_excused s.view p) _ root _)
  refine HangsOnly.bind (.look collects) fun order _ _ => ?_
  refine .forEach (fun entry s => HangsOnly.modify.bind fun _ _ _ => ?_) order
  refine (onView_hangs (.delete p entry.1) rfl).bind fun present t _ => ?_
  split
  · exact .modify
  · exact .fault

theorem leaveContainer_hangs (r : UInt64) (child : ConceptId) (container : Option Concept) :
    HangsOnly (Stalls σ) P (leaveContainer p r child container) s := by
  cases container with
  | none => exact .pure
  | some parent =>
    exact HangsOnly.modify.bind fun _ _ _ => (replace_hangs _).bind fun _ _ _ => .pure

theorem remove_hangs (former c : Concept) (container : Option Concept) (directive : Directive) :
    HangsOnly (Stalls σ) P (remove p former c container directive) s := by
  unfold remove
  split
  · exact (storeChanged_hangs former c).bind fun _ _ _ => .pure
  · exact ownRevision_hangs.bind fun r _ _ => (removeAll_hangs former).bind fun _ _ _ =>
      (leaveContainer_hangs r former.id container).bind fun _ _ _ => .pure

/-- In a state of a batch, one of the hooks that are asked about a concept does not return. -/
def Unanswered (env : Setting) (p : Partition) (occasion : Occasion) (c : Concept) (s : State σ) :
    Prop :=
  ∃ security container, ∃ hook ∈ env.registry.hooksFor c.conceptType, ∃ f h h',
    hook occasion (hookSetting env p s security container) h = (.error f, h') ∧ f.kind = .endless

theorem invoke_hangs (security : SecurityContext) (occasion : Occasion) (c : Concept)
    (container : Option Concept) :
    HangsOnly (Stalls σ) (fun t => t.view = s.view ∧ Unanswered env p occasion c t)
      (invoke env p security occasion c container) s := by
  intro f t failed endless
  unfold invoke at failed
  split at failed
  · dsimp only at failed
    cases ran : env.registry.invoke occasion (hookSetting env p s security container)
        { concept := c, ids := s.ids } with
    | mk answer h' =>
      unfold hookSetting at ran
      rw [ran] at failed
      obtain ⟨failed, rfl⟩ := Prod.mk.inj failed
      cases answer with
      | ok outcome => cases failed
      | error f' =>
        cases failed
        cases asked : Hook.runAll (env.registry.hooksFor c.conceptType) occasion
            (hookSetting env p s security container) { concept := c, ids := s.ids } with
        | mk answer h =>
          cases answer with
          | ok merged => cases (Step.bind_of_ok asked).symm.trans ran
          | error e =>
            cases (Step.bind_of_error asked).symm.trans ran
            obtain ⟨hook, member, h, h', fails⟩ := Hook.runAll_error asked
            exact .inr ⟨rfl, security, container, hook, member, f, h, h', fails, endless⟩
  · cases failed

/-- What has been checked, and what the hooks have answered, when a new concept is about to be
stored. -/
structure Entering (env : Setting) (p : Partition) (s : State σ) (c : Concept)
    (container : Option Concept) (c' : Concept) (before : HookOutcome) (t : State σ) : Prop where
  fresh : find p c.id s = (.ok none, s)
  housed : containerFor p c s = (.ok container, s)
  shape : c.checkShape = .ok ()
  allowed : env.gate.authorize env.actor c.withoutChildren .create p
    (env.gate.contextFor env.actor p container) = .ok ()
  hooked : invoke env p (env.gate.contextFor env.actor p container) .beforeCreate c.withoutChildren
    container s = (.ok (c', before), t)

theorem create_hangs {c : Concept} {orderKey : Option Int64}
    (early : ∀ security container,
      HangsOnly (Stalls σ) P (invoke env p security .beforeCreate c.withoutChildren container) s)
    (late : ∀ container c' before s₁ stored container' u, Entering env p s c container c' before s₁ →
      storeNew p c' container orderKey s₁ = (.ok (stored, container'), u) → ∀ security,
      HangsOnly (Stalls σ) P (invoke env p security .afterCreate stored container') u) :
    HangsOnly (Stalls σ) P (create env p c orderKey) s := by
  refine (find_hangs c.id).bind fun found t looked => ?_
  obtain rfl := find_state looked
  cases found with
  | some _ => exact .fault
  | none =>
    refine (containerFor_hangs c).bind fun container t housed => ?_
    obtain rfl := containerFor_state housed
    refine (HangsOnly.lift c.checkShape_plain).bind fun _ t shaped => ?_
    obtain ⟨shape, rfl⟩ := lift_eq_ok_iff.mp shaped
    refine (HangsOnly.lift (env.gate.authorize_plain _ _ _ _ _)).bind fun _ t authorized => ?_
    obtain ⟨allowed, rfl⟩ := lift_eq_ok_iff.mp authorized
    refine (early _ container).bind fun ⟨c', before⟩ s₁ hooked => ?_
    dsimp only
    split
    · exact .pure
    · refine (requireTargets_hangs c' none).bind fun _ s₂ required => ?_
      obtain ⟨-, rfl⟩ := look_eq_ok_iff.mp required
      refine (storeNew_hangs c' container orderKey).bind fun ⟨stored, container'⟩ u entered => ?_
      exact (late container c' before s₁ stored container' u
        ⟨looked, housed, shape, allowed, hooked⟩ entered _).bind fun _ _ _ => .pure

theorem expectRevision_hangs (former c : Concept) :
    HangsOnly (Stalls σ) P (expectRevision p former c) s := by
  refine .look ?_
  split
  · exact .fail (.of_plain (Fault.plain fun m => by simp))
  · exact .ok

theorem update_hangs {c : Concept}
    (asks : ∀ earlier later occasion c' security container t, Around (.update c) earlier later →
      (occasion = earlier ∨ occasion = later) →
      HangsOnly (Stalls σ) P (invoke env p security occasion c' container) t) :
    HangsOnly (Stalls σ) P (update env p c) s := by
  refine (require_hangs c.id).bind fun former _ _ => ?_
  refine (HangsOnly.lift (expectType_plain former c.conceptType)).bind fun _ _ _ => ?_
  refine (HangsOnly.lift (expectContainer_plain former c)).bind fun _ _ _ => ?_
  refine (expectRevision_hangs former c).bind fun _ _ _ => ?_
  refine (HangsOnly.lift c.checkShape_plain).bind fun _ _ _ => ?_
  refine (HangsOnly.lift (Concept.withStoredChildren_plain former c)).bind fun c₁ _ _ => ?_
  refine (containerOf_hangs former).bind fun container _ _ => ?_
  refine (HangsOnly.lift (env.gate.authorize_plain _ _ _ _ _)).bind fun _ _ _ => ?_
  refine (asks _ _ _ c₁ _ container _ .update (.inl rfl)).bind fun ⟨c₂, before⟩ _ _ => ?_
  dsimp only
  split
  · exact .pure
  · refine (requireTargets_hangs c₂ (some former)).bind fun _ _ _ => ?_
    refine (storeChanged_hangs former c₂).bind fun ⟨c₃, written⟩ _ _ => ?_
    cases written with
    | false => exact .pure
    | true =>
      exact (asks _ _ _ c₃ _ container _ .update (.inr rfl)).bind fun _ _ _ => .pure

theorem delete_hangs {id : ConceptId} {kind : ConceptType} {former : Concept}
    (asks : ∀ earlier later occasion c' security container t, Around (.delete id kind) earlier later →
      (occasion = earlier ∨ occasion = later) →
      HangsOnly (Stalls σ) P (invoke env p security occasion c' container) t) :
    HangsOnly (Stalls σ) P (delete env p former) s := by
  refine (containerOf_hangs former).bind fun container _ _ => ?_
  refine (HangsOnly.lift (env.gate.authorize_plain _ _ _ _ _)).bind fun _ _ _ => ?_
  refine (asks _ _ _ former _ container _ .delete (.inl rfl)).bind fun ⟨c', before⟩ _ _ => ?_
  dsimp only
  split
  · exact .pure
  · refine (remove_hangs former c' container before.directive).bind fun ⟨c₂, container'⟩ _ _ => ?_
    exact (asks _ _ _ c₂ _ container' _ .delete (.inr rfl)).bind fun _ _ _ => .pure

/-- An operation has no end only if that is so of its creation of a concept, or of the hooks around an
update or a deletion. -/
theorem execute_hangs {operation : Operation}
    (creates : ∀ c orderKey t, operation = .create c orderKey → t.view = s.view →
      HangsOnly (Stalls σ) P (create env p c orderKey) t)
    (asks : ∀ earlier later occasion c security container t, Around operation earlier later →
      operation.kind ≠ .create → (occasion = earlier ∨ occasion = later) →
      HangsOnly (Stalls σ) P (invoke env p security occasion c container) t) :
    HangsOnly (Stalls σ) P (execute env p operation) s := by
  refine HangsOnly.modify.bind fun _ t reported => ?_
  obtain rfl := modify_eq_ok_iff.mp reported
  cases operation with
  | create c orderKey => exact creates c orderKey _ rfl rfl
  | update c =>
    exact update_hangs fun _ _ _ _ _ _ _ around which => asks _ _ _ _ _ _ _ around nofun which
  | delete id kind =>
    refine (require_hangs id).bind fun former _ _ => ?_
    refine (HangsOnly.lift (expectType_plain former kind)).bind fun _ _ _ => ?_
    exact delete_hangs fun _ _ _ _ _ _ _ around which => asks _ _ _ _ _ _ _ around nofun which

end Parts

end Batch

end ConceptLedger
