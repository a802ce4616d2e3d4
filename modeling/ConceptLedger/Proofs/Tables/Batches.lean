import ConceptLedger.Proofs.Tables.Calls

/-!
Batches on views that go together. A batch runs the same on a view in memory and on one of tables
that mirror it, and takes the same revisions; only what the log refuses is told in other words. Where
a counter has come to the end of the signed range, the tables alone may reject the batch.
-/

namespace ConceptLedger

namespace Tables

open Step Batch

/-- A step that leaves the counters of a view alone, and whether it can be written to. -/
def LeavesCounters {α : Type} (x : Step Memory.View α) : Prop :=
  ∀ v, (x v).2.writable = v.writable ∧ (x v).2.contents.counters = v.contents.counters

namespace LeavesCounters

variable {α β : Type}

theorem bind {x : Step Memory.View α} {f : α → Step Memory.View β} (first : LeavesCounters x)
    (later : ∀ a, LeavesCounters (f a)) : LeavesCounters (x >>= f) := by
  intro v
  have before := first v
  cases run : x v with
  | mk result v' =>
    rw [run] at before
    cases result with
    | ok a =>
      rw [bind_of_ok run]
      exact ⟨(later a v').1.trans before.1, (later a v').2.trans before.2⟩
    | error e =>
      rw [bind_of_error run]
      exact before

theorem look (f : Memory.View → Except Failure α) : LeavesCounters (Step.look f) :=
  fun _ => ⟨rfl, rfl⟩

theorem gets (f : Memory.View → α) : LeavesCounters (Step.gets f) := fun _ => ⟨rfl, rfl⟩

theorem pure (a : α) : LeavesCounters (Pure.pure a : Step Memory.View α) := fun _ => ⟨rfl, rfl⟩

theorem write (p : Partition) (c : Concept) :
    LeavesCounters (ConceptStore.write p c : Step Memory.View Bool) := by
  refine bind (look _) fun _ => bind (gets _) fun found => ?_
  cases found with
  | true => exact pure _
  | false => exact bind (fun _ => ⟨rfl, rfl⟩) fun _ => pure _

theorem update (p : Partition) (c : Concept) :
    LeavesCounters (ConceptStore.update p c : Step Memory.View Bool) := by
  refine bind (look _) fun _ => bind (gets _) fun found => ?_
  cases found with
  | true => exact bind (fun _ => ⟨rfl, rfl⟩) fun _ => pure _
  | false => exact pure _

theorem delete (p : Partition) (id : ConceptId) :
    LeavesCounters (ConceptStore.delete p id : Step Memory.View Bool) :=
  bind (look _) fun _ => bind (gets _) fun _ => bind (fun _ => ⟨rfl, rfl⟩) fun _ => pure _

theorem forEach {f : α → Step Memory.View Unit} (each : ∀ a, LeavesCounters (f a)) (l : List α) :
    LeavesCounters (Step.forEach f l) := by
  induction l with
  | nil => exact pure _
  | cons a rest ih => exact bind (each a) fun _ => ih

theorem appendOne (r : RevisionRecord) : LeavesCounters (Memory.View.appendOne r) := by
  refine bind (gets _) fun found => ?_
  cases found with
  | true => exact fun _ => ⟨rfl, rfl⟩
  | false => exact fun _ => ⟨rfl, rfl⟩

theorem append (records : List RevisionRecord) :
    LeavesCounters (ConceptStore.append records : Step Memory.View Unit) := by
  refine bind (look _) fun _ => bind (gets _) fun rejects => ?_
  cases rejects with
  | true => exact fun _ => ⟨rfl, rfl⟩
  | false => exact forEach appendOne records

theorem logChanges (p : Partition) (revision : UInt64) (changed : List Change) :
    LeavesCounters (ConceptStore.logChanges p revision changed :
      Step Memory.View (List RevisionRecord)) :=
  bind (look _) fun _ => bind (append _) fun _ => pure _

end LeavesCounters

/-- Views on which a batch runs: they go together, can be written to, and all counters and all
revisions that the batch has taken are in the signed range. Where the comparison is strict, the
others have room for one more. -/
structure Running (strict : Bool) (codec : TextCodec) (taken : SortedMap Partition UInt64)
    (v : Memory.View) (w : View) : Prop where
  twins : Twins codec v w
  writable : v.writable = true
  ranged : ∀ p, (v.contents.counter p).toNat < Word.half
  bound : ∀ p r, taken.find? p = some r → r.toNat < Word.half
  room : strict = true → ∀ p, taken.find? p = none → (v.contents.counter p).toNat + 1 < Word.half

theorem Running.alike {strict : Bool} {codec : TextCodec} {α : Type}
    {E : Failure → Failure → Prop} {Q : α → Prop} {x : Step Memory.View α} {y : Step View α}
    (alike : Alike (Twins codec) E Q x y) (leaves : LeavesCounters x)
    (taken : SortedMap Partition UInt64) : Alike (Running strict codec taken) E Q x y := by
  intro v w running
  obtain ⟨writable, counters⟩ := leaves v
  have outcomes := alike v w running.twins
  have kept : ∀ p, (x v).2.contents.counter p = v.contents.counter p := fun p => by
    unfold Memory.Contents.counter
    rw [counters]
  have still : ∀ w', Twins codec (x v).2 w' → Running strict codec taken (x v).2 w' :=
    fun w' twins =>
      { twins
        writable := writable.trans running.writable
        ranged := fun p => by
          rw [kept]
          exact running.ranged p
        bound := running.bound
        room := fun strict p untaken => by
          rw [kept]
          exact running.room strict p untaken }
  generalize x v = outcome at outcomes still
  generalize y w = outcome' at outcomes
  cases outcomes with
  | ok good states => exact .ok good (still _ states)
  | error failures states => exact .error failures (still _ states)

/-- Taking a revision that is in the signed range. -/
theorem Running.take {strict : Bool} {codec : TextCodec} {taken : SortedMap Partition UInt64}
    {v v' : Memory.View} {w w' : View} {p : Partition} (running : Running strict codec taken v w)
    (twins : Twins codec v' w') (writable : v'.writable = v.writable)
    (room : (v.contents.counter p).toNat + 1 < Word.half)
    (counter : ∀ q, v'.contents.counter q =
      if q = p then v.contents.counter p + 1 else v.contents.counter q) :
    Running strict codec (taken.insert p (v.contents.counter p + 1)) v' w' := by
  have next : (v.contents.counter p + 1).toNat < Word.half := by
    rw [UInt64.toNat_add, UInt64.toNat_one]
    omega
  constructor
  case twins => exact twins
  case writable => exact writable.trans running.writable
  case ranged =>
    intro q
    rw [counter]
    split
    · exact next
    · exact running.ranged q
  case bound =>
    intro q r known
    rw [SortedMap.find?_insert] at known
    split at known
    · cases known
      exact next
    · exact running.bound q r known
  case room =>
    intro strict q free
    rw [SortedMap.find?_insert] at free
    split at free
    · cases free
    · rename_i other
      rw [counter, if_neg other]
      exact running.room strict q free

/-- What one view tells hooks, the other one tells them too. -/
theorem mirroring {strict : Bool} {codec : TextCodec} :
    Mirroring (Running strict codec) Instant.Legible where
  finds running := running.twins.find?_eq.symm
  serves running p := running.twins.serves p
  clock running := running.twins.time
  timely running := running.twins.legible
  size running := running.twins.extent_eq.symm

/-- Batches go alike on both views. Only where a counter is at the end of the signed range may they
fail on the tables alone. -/
theorem simulation {strict : Bool} {codec : TextCodec} :
    Simulation (Running strict codec) Eq { times := Instant.Legible } strict where
  plain _ _ := rfl
  finds running _ := congrFun (mirroring.finds running) _
  serves running _ := mirroring.serves running _
  walks running _ := mirroring.walks running _
  writes {_ p} _ _ legible := Running.alike (write_alike legible) (.write p _) _
  updates {_ p} _ _ legible := Running.alike (update_alike legible) (.update p _) _
  deletes {_ p} _ id := Running.alike (delete_alike id) (.delete p id) _
  raises := by
    intro taken v w p running _ untaken
    by_cases room : (v.contents.counter p).toNat + 1 < Word.half
    · have outcomes := nextRevision_matched running.twins room
      -- with room left the counter can be raised in memory, and so it can on tables
      have left := (Memory.View.nextRevision_cases p running.writable).resolve_right
        fun ended => succ_ne_zero room ended.1
      rw [left.2] at outcomes
      generalize right : ConceptStore.nextRevision p w = outcome at outcomes
      cases outcomes with
      | ok _ twins =>
        exact .inl ⟨_, _, _, left.2, rfl, running.take twins rfl room fun q => by
          rw [Memory.Contents.counter_count]⟩
    · have ranged := running.ranged p
      have last : (v.contents.counter p).toNat + 1 = Word.half := by omega
      obtain ⟨f, w', right⟩ := nextRevision_exhausted running.twins running.writable last
      exact .inr ⟨f, w', right, fun strict => absurd (running.room strict p untaken) room⟩

section Ends

variable {strict : Bool} {codec : TextCodec} {env : Setting} {p : Partition}

/-- What became of the touched concepts is the same on both views, and legible. -/
theorem settled_alike : Alike (Paired (Running strict codec) Eq) SameKind
    (fun settled => ∀ x ∈ settled.filterMap id, ∀ c ∈ x.2.state, c.Legible)
    (Step.look fun s : State Memory.View => s.touched.mapM (settle s))
    (Step.look fun t : State View => t.touched.mapM (settle t)) strict := by
  refine .look ?_
  rintro s t ⟨w, ids, rfl, running, -⟩
  have same : settle (s.onto w ids) = settle s := by
    funext t
    simp only [settle, State.onto, running.twins.find?_eq]
  refine ⟨by rw [same]; rfl, fun settled run x member c present => ?_, fun e _ => SameKind.refl e⟩
  rw [settle_eq, mapM_eq_ok fun _ _ => rfl] at run
  cases run
  have change : x ∈ s.draft.changes := by
    rw [List.filterMap_map, Function.id_comp] at member
    exact member
  have state := (Draft.state_of_change change).1
  exact running.twins.fits.legible _ _ c (state.symm.trans present)

theorem logPartition_alike {changes : List (Partition × Change)}
    (legible : ∀ x ∈ changes, ∀ c ∈ x.2.state, c.Legible) (p : Partition) :
    Alike (Paired (Running strict codec) Eq) SameKind (fun _ => True) (logPartition changes p)
      (logPartition changes p) strict := by
  refine Alike.bind (Q := fun found => ∀ r ∈ found, r.toNat < Word.half) (.gets ?_)
    fun found bound => ?_
  · rintro s t ⟨w, ids, rfl, running, -⟩
    exact ⟨rfl, running.bound p⟩
  · cases found with
    | none => exact .fail (SameKind.refl _)
    | some r =>
      have fits : ∀ change ∈ (changes.filter fun c => c.1 = p).map (·.2), ∀ c ∈ change.state,
          c.Legible := by
        intro change member
        obtain ⟨x, inside, rfl⟩ := List.mem_map.mp member
        exact legible x (List.mem_filter.mp inside).1
      refine (Simulation.onView fun taken => Running.alike (logChanges_alike (bound r rfl) fits)
        (.logChanges p r _) taken).bind fun _ _ => .pure trivial

theorem finish_alike (p : Partition) : Alike (Paired (Running strict codec) Eq) SameKind
    (fun _ => True) (finish p) (finish p) strict := by
  refine settled_alike.bind fun settled legible => ?_
  refine (Alike.forEach fun q _ => logPartition_alike legible q).bind fun _ _ => ?_
  refine Alike.bind (Q := fun _ => True) (.gets ?_) fun _ _ => .pure trivial
  rintro s t ⟨w, ids, rfl, -⟩
  exact ⟨rfl, trivial⟩

theorem Running.start {v : Memory.View} {w : View} (twins : Twins codec v w)
    (writable : v.writable = true) (ranged : ∀ p, (v.contents.counter p).toNat < Word.half)
    (room : strict = true → ∀ p, (v.contents.counter p).toNat + 1 < Word.half) :
    Running strict codec SortedMap.empty v w where
  twins := twins
  writable := writable
  ranged := ranged
  bound _ _ taken := nomatch taken
  room strict p _ := room strict p

theorem Running.roomy {v : Memory.View} {w : View} (twins : Twins codec v w)
    (writable : v.writable = true) (room : ∀ p, (v.contents.counter p).toNat + 1 < Word.half) :
    Running true codec SortedMap.empty v w :=
  .start twins writable (fun p => Nat.lt_of_succ_lt (room p)) fun _ => room

section Runs

variable {v : Memory.View} {w : View} (ids : IdSupply)
  (running : Running strict codec SortedMap.empty v w)
  {env : Setting} (steady : Hook.Steady Instant.Legible (fun _ => True) env.registry.invoke)
  (p : Partition) {operations : List Operation}
  (legible : ∀ operation ∈ operations, operation.Timely Instant.Legible)

include running steady legible

/-- The operations of a batch go the same way on both views. -/
theorem applyAll_matched : Matched (Paired (Running strict codec) Eq) Eq (fun _ => True)
    (applyAll env p 0 operations { view := v, ids })
    (applyAll env p 0 operations { view := w, ids }) strict := by
  have admitted : ∀ operation ∈ operations, Scope.Admits { times := Instant.Legible } (p, operation) :=
    fun operation member => ⟨trivial, trivial, legible operation member⟩
  refine simulation.applyAll (mirroring.conducts steady fun _ _ => rfl) ?_ 0 admitted _ _
    ⟨w, ids, rfl, running, rfl⟩
  rintro e _ index rfl
  rfl

/-- A batch succeeds with the same outcome on both views or fails in the same kind of way. -/
theorem run_matched : Matched (Paired (Running strict codec) Eq) SameKind (fun _ => True)
    (run env p operations { view := v, ids }) (run env p operations { view := w, ids })
    strict := by
  have applied : Matched (Paired (Running strict codec) Eq) SameKind (fun _ => True)
      (applyAll env p 0 operations { view := v, ids })
      (applyAll env p 0 operations { view := w, ids }) strict := by
    refine (applyAll_matched ids running steady p legible).imp (fun _ _ => id) ?_ fun _ => id
    rintro e _ rfl
    exact SameKind.refl e
  exact applied.bind fun _ s t _ states => finish_alike p s t states

/-- Where nothing logged is above its counter, a batch also fails in the same way. -/
theorem run_matched_of_recorded
    (recorded : ∀ r ∈ v.contents.log, r.revision ≤ v.contents.counter r.partition) :
    Matched (Paired (Running strict codec) Eq) Eq (fun _ => True)
      (run env p operations { view := v, ids }) (run env p operations { view := w, ids })
      strict := by
  have outcomes := applyAll_matched ids running steady p legible
  unfold run
  generalize left : applyAll env p 0 operations { view := v, ids } = outcome at outcomes
  generalize right : applyAll env p 0 operations { view := w, ids } = outcome' at outcomes
  cases outcomes with
  | error failures states =>
    rw [bind_of_error left, bind_of_error right]
    exact .error failures states
  | alone =>
    rw [bind_of_error right]
    exact .alone
  | @ok _ s t _ _ states =>
    rw [bind_of_ok left, bind_of_ok right]
    have writes := applyAll_writes left
    have tracks : Tracks v.contents s.draft :=
      (Tracks.start (s := { view := v, ids }) rfl).writes writes
    obtain ⟨contents, same⟩ := writes.view
    have same : s.view = { v with contents := contents } := same
    -- recording, where failures might differ, does not fail at all
    obtain ⟨outcome, s', finished⟩ := finish_succeeds (p := p) tracks recorded
      (by rw [same]; exact running.writable) (by rw [same]; exact running.twins.accepts)
    have ends := finish_alike p s t states
    rw [finished] at ends ⊢
    generalize finish p t = ended at ends ⊢
    cases ends with
    | ok good states => exact .ok good states
    | alone => exact .alone

end Runs

end Ends

end Tables

end ConceptLedger
