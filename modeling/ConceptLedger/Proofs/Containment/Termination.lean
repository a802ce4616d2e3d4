import ConceptLedger.Proofs.Batch.Schedule
import ConceptLedger.Proofs.Containment.Integrity
import ConceptLedger.Proofs.Hook.Steady

/-!
Operations under the standard rules come to an end. The only rule that might not do so copies the contents
of an iteration, which ends where containment is a forest. Every draft of a batch is one, also the draft
that a new concept has just been stored in, which is the one that the rule is told of.
-/

namespace ConceptLedger

open Step Hook

/-- The rules of both lifecycles have an end, except that a copy may have none after a creation. -/
theorem Registry.standard_ends {t : ConceptType} {hook : Hook} {occasion : Occasion}
    {setting : HookSetting} {f : Failure} {h h' : HookState}
    (member : hook ∈ Registry.standard.hooksFor t)
    (told : setting.Timely fun _ => True) (run : hook occasion setting h = (.error f, h')) :
    f.kind = .endless → occasion.phase = .afterCreate ∧ setting.Endless := by
  have timely (c : Concept) : c.Timely fun _ => True := fun _ _ _ => trivial
  have ends : Keeps (fun _ => True)
      (fun f => f.kind = .endless → occasion.phase = .afterCreate ∧ setting.Endless)
      (fun outcome => AllTimely (fun _ => True) outcome.cascades) (hook occasion setting) := by
    obtain ⟨entry, listed, rfl⟩ := List.mem_map.mp member
    have listed := (List.mem_filter.mp listed).1
    rcases List.mem_cons.mp listed with rfl | later
    · exact EngineeringModelSetup.hook_steady (fun f plain endless => absurd endless plain.ends) occasion
        setting (fun former _ => timely former) told
    · cases List.mem_singleton.mp later
      exact IterationSetup.hook_keeps (fun f plain endless => absurd endless plain.ends)
        (fun after stuck _ => ⟨after, stuck⟩) told
  have outcome := ends h h ⟨rfl, timely h.concept⟩
  rw [run] at outcome
  cases outcome with
  | error failures _ => exact failures.2

namespace Memory.View

open ConceptStore

section Calls

variable {v : View}

theorem guardWrite_hangs (op : String) : HangsOnly False (fun _ => False) (guardWrite op) v := by
  refine .look fun f failed => ?_
  split at failed <;> cases failed
  exact nofun

theorem raiseRevision_hangs (p : Partition) :
    HangsOnly False (fun _ => False) (raiseRevision p) v := by
  refine (guardWrite_hangs _).bind fun _ _ _ => HangsOnly.gets.bind fun counter _ _ => ?_
  split
  · exact .fail (.of_plain Failure.overflow_plain)
  · exact HangsOnly.modify.bind fun _ _ _ => .pure

theorem append_hangs (records : List RevisionRecord) :
    HangsOnly False (fun _ => False) (append records) v := by
  refine (guardWrite_hangs _).bind fun _ _ _ => HangsOnly.gets.bind fun rejects _ _ => ?_
  split
  · exact .fault
  · refine .forEach (fun r v => HangsOnly.gets.bind fun logged _ _ => ?_) records
    split
    · exact .fail nofun
    · exact .modify

/-- Reading a view in memory never fails. -/
theorem look_hangs {α : Type} {g : View → Except Failure α} {a : α} (answers : g v = .ok a) :
    HangsOnly False (fun _ => False) (Step.look g) v :=
  .look fun f failed => by cases answers.symm.trans failed

theorem call_hangs (call : StoreCall) : HangsOnly False (fun _ => False) call.run v := by
  cases call with
  | read p t ids => exact (look_hangs rfl).bind fun _ _ _ => .pure
  | readCached p ids => exact (look_hangs rfl).bind fun _ _ _ => .pure
  | find p id => exact (look_hangs (find?_eq v p id)).bind fun _ _ _ => .pure
  | write p c =>
    refine HangsOnly.bind ?_ fun _ _ _ => .pure
    refine (guardWrite_hangs _).bind fun _ _ _ => HangsOnly.gets.bind fun present _ _ => ?_
    split
    · exact .pure
    · exact HangsOnly.modify.bind fun _ _ _ => .pure
  | update p c =>
    refine HangsOnly.bind ?_ fun _ _ _ => .pure
    refine (guardWrite_hangs _).bind fun _ _ _ => HangsOnly.gets.bind fun present _ _ => ?_
    split
    · exact HangsOnly.modify.bind fun _ _ _ => .pure
    · exact .pure
  | delete p id =>
    refine HangsOnly.bind ?_ fun _ _ _ => .pure
    exact (guardWrite_hangs _).bind fun _ _ _ => HangsOnly.gets.bind fun present _ _ =>
      HangsOnly.modify.bind fun _ _ _ => .pure
  | currentRevision p => exact (look_hangs rfl).bind fun _ _ _ => .pure
  | raiseRevision p => exact (raiseRevision_hangs p).bind fun _ _ _ => .pure
  | append records => exact (append_hangs records).bind fun _ _ _ => .pure
  | revisionsAsOf p ids bound => exact (look_hangs rfl).bind fun _ _ _ => .pure
  | history p id => exact (look_hangs rfl).bind fun _ _ _ => .pure
  | nextRevision p =>
    refine HangsOnly.bind ?_ fun _ _ _ => .pure
    refine (look_hangs rfl).bind fun committed _ _ => (raiseRevision_hangs p).bind fun r _ _ => ?_
    refine .look ?_
    unfold checkedRevision
    split
    · exact .fail fun endless => absurd endless (Fault.ends _)
    · exact .ok
  | logChanges p revision changed =>
    have recorded : Refuses (Excused False) (changed.mapM (recordOf (time v) p revision)) := by
      refine .mapM (fun change => ?_) changed
      unfold recordOf
      split
      · split
        · exact .ok
        · exact .fail fun endless => absurd endless (Fault.ends _)
      · exact .ok
    exact HangsOnly.bind (HangsOnly.bind (.look recorded) fun records _ _ =>
      (append_hangs records).bind fun _ _ _ => .pure) fun _ _ _ => .pure
  | statesAsOf p ids bound => exact (look_hangs rfl).bind fun _ _ _ => .pure

end Calls

/-- Every call of a store in memory returns. -/
theorem not_stalls : ¬ Batch.Stalls View := by
  rintro ⟨call, v, w, f, run, endless⟩
  exact (call_hangs call f w run endless).elim id id

end Memory.View

namespace Batch

open Memory

variable {env : Setting} {p : Partition} {s t : State View} {security : SecurityContext}
  {container : Option Concept}

theorem hookSetting_timely : (hookSetting env p s security container).Timely fun _ => True where
  time := trivial
  container _ _ := fun _ _ _ => trivial
  serves q id := ⟨_, View.find?_eq s.view q id, fun _ _ _ _ _ => trivial⟩

theorem forested_of_view (same : t.view = s.view) (forests : s.draft.Forested) : t.draft.Forested :=
  fun q => show Forest (t.view.contents.find? q) from same ▸ forests q

/-- A copy that may go as deep as there are concepts in the store ends as it would at any greater depth,
or it has no end at any depth. -/
theorem copy_ends_or_never (q : Partition) (source : Concept) (parent : ConceptId) (h : HookState) :
    (∃ cascades h', ∀ more, IterationSetup.copyContents (hookSetting env p s security container) q
        (ConceptStore.extent s.view + 1 + more) source parent h = (.ok cascades, h')) ∨
      ∀ depth, (IterationSetup.copyContents (hookSetting env p s security container) q depth source
        parent h).1 = .error .endless := by
  have known (y : ConceptId) (child : Concept) (found : s.draft.find? q y = some child) :
      y ∈ storedIds s.view.contents := mem_storedIds (p := q) (Option.isSome_of_eq_some found)
  exact IterationSetup.copyContents_ends_or_never (View.find?_eq s.view q) known
    (card_le_extent (Finset.Subset.refl _)) source parent h

/-- Where containment is a forest, everything can be copied. -/
theorem copies_end (forests : s.draft.Forested) :
    ¬ (hookSetting env p s security container).Endless := by
  rintro ⟨q, x, source, parent, h, looked, stuck⟩
  have lookup (y : ConceptId) : (hookSetting env p s security container).lookup q y =
      .ok (s.draft.find? q y) := View.find?_eq s.view q y
  have stored : s.draft.find? q x = some source := Except.ok.inj ((lookup x).symm.trans looked)
  rcases copy_ends_or_never q source parent h with ⟨cascades, h', run⟩ | never
  · cases (congrArg Prod.fst (run 0)).symm.trans stuck
  · obtain ⟨cascades, h', run⟩ := IterationSetup.copyContents_shallow lookup
      ((forests q).shallow stored (Nat.lt_succ_self _)) parent h
    cases (congrArg Prod.fst (run 0)).symm.trans (never _)

/-- A rule that has no end is one that copies where containment is no forest. -/
theorem Unanswered.not_forested {occasion : Occasion} {c : Concept}
    (standard : env.registry = Registry.standard) (unanswered : Unanswered env p occasion c s) :
    occasion.phase = .afterCreate ∧ ¬ s.draft.Forested := by
  obtain ⟨security, container, hook, member, f, h, h', run, endless⟩ := unanswered
  rw [standard] at member
  obtain ⟨after, stuck⟩ := Registry.standard_ends member hookSetting_timely run endless
  exact ⟨after, fun forests => copies_end forests stuck⟩

theorem Entering.request {c c' : Concept} {before : HookOutcome}
    (entering : Entering env p s c container c' before t) :
    CreateRequest env p s.draft c container c' before where
  fresh := (find_ok entering.fresh).1.symm
  housed := (containerFor_ok entering.housed).1
  shape := entering.shape
  allowed := authorize_ok entering.allowed
  hooked := ⟨s, t, rfl, entering.hooked⟩

/-- A draft in which a new concept has just been stored is a forest in each partition. -/
theorem Entering.forested {c c' stored : Concept} {container' : Option Concept} {before : HookOutcome}
    {orderKey : Option Int64} {u : State View} (standard : env.registry = Registry.standard)
    (forests : s.draft.Forested) (entering : Entering env p s c container c' before t)
    (run : storeNew p c' container orderKey t = (.ok (stored, container'), u)) :
    u.draft.Forested := by
  obtain ⟨rfl, -, absent, entered⟩ := storeNew_ok run
  rw [invoke_draft entering.hooked] at absent entered
  intro q
  by_cases same : q = p
  · subst same
    exact entering.request.forest standard (forests q) absent entered
  · rw [entered.elsewhere same, find?_put_other _ _ _ same, find?_allot_eq]
    exact forests q

/-- Under the standard rules every operation on forests comes to an end. -/
theorem execute_ends {operation : Operation} (standard : env.registry = Registry.standard)
    (forests : s.draft.Forested) :
    HangsOnly (Stalls View) (fun _ => False) (execute env p operation) s := by
  have asked (occasion : Occasion) (security : SecurityContext) (c : Concept)
      (container : Option Concept) (t : State View)
      (fine : occasion.phase = .afterCreate → t.draft.Forested) :
      HangsOnly (Stalls View) (fun _ => False) (invoke env p security occasion c container) t := by
    refine (invoke_hangs security occasion c container).imp fun u ⟨same, unanswered⟩ => ?_
    obtain ⟨after, tangled⟩ := unanswered.not_forested standard
    exact tangled (forested_of_view same (fine after))
  refine execute_hangs (fun c orderKey t _ same => ?_)
    (fun _ _ occasion c security container t around kind which => ?_)
  · have forests := forested_of_view same forests
    refine create_hangs (fun security container => asked _ _ _ _ _ nofun) ?_
    intro container c' before s₁ stored container' u entering run security
    exact asked _ _ _ _ _ fun _ => entering.forested standard forests run
  · refine asked _ _ _ _ _ fun after => ?_
    cases around with
    | create => exact absurd rfl kind
    | update => rcases which with rfl | rfl <;> cases after
    | delete => rcases which with rfl | rfl <;> cases after

/-- So does a run of operations. -/
theorem Drains.ends {spawned : Nat} {queue : List (Partition × Operation)} {turns : List (Turn View)}
    {result : Except Failure Unit} (standard : env.registry = Registry.standard)
    (forests : s.draft.Forested) (run : Drains env spawned queue s turns result t) {f : Failure}
    (failure : result = .error f) : f.kind ≠ .endless := by
  have executes {turn : Turn View} {f : Failure} (forests : turn.start.draft.Forested)
      (executed : turn.Executed env) (answer : turn.answer = .error f) : f.kind ≠ .endless :=
    fun endless => (execute_ends standard forests f turn.finish (executed.run answer)
      endless).elim View.not_stalls id
  induction run with
  | idle => cases failure
  | failed executed answer =>
    cases failure
    exact executes forests executed answer
  | exceeded =>
    cases failure
    exact Fault.ends _
  | next executed answer _ _ ih =>
    refine ih ?_ failure
    exact (execute_ok (executed.run answer)).forested standard forests

end Batch

end ConceptLedger
