import ConceptLedger.Proofs.Batch.Track
import Mathlib.Data.List.Perm.Basic

/-!
The end of a batch. What is logged and what is answered are read off the touched addresses; for a
draft with true records these come down to the addresses whose state has changed.
-/

namespace ConceptLedger.Batch

open Step

/-- What became of a touched address, as the log is told. -/
def Draft.settled (d : Draft) (t : Touch) : Option (Partition × Change) :=
  match d.find? t.address.partition t.address.id, d.removed.find? t.address, t.existed with
  | some c, _, _ => some (t.address.partition, ⟨t.address.id, c.conceptType, some c⟩)
  | none, some type, true => some (t.address.partition, ⟨t.address.id, type, none⟩)
  | none, _, _ => none

/-- The changes that the log is told. -/
def Draft.changes (d : Draft) : List (Partition × Change) := d.touched.filterMap d.settled

/-- The address of a change. -/
def changedAt (x : Partition × Change) : Address := ⟨x.1, x.2.id⟩

/-- The record of a change under given revisions. -/
def recordAt (revisions : SortedMap Partition UInt64) (time : Instant) (x : Partition × Change) :
    RevisionRecord :=
  ⟨x.1, x.2.id, x.2.conceptType, (revisions.find? x.1).getD 0, x.2.state, time⟩

/-- A running batch whose view has been given records. -/
def logged (s : State Memory.View) (records : List RevisionRecord) : State Memory.View :=
  { s with view := { s.view with contents := s.view.contents.record records } }

theorem logged_nil (s : State Memory.View) : logged s [] = s := by
  simp [logged, Memory.Contents.record]

theorem logged_logged (s : State Memory.View) (first later : List RevisionRecord) :
    logged (logged s first) later = logged s (first ++ later) := by
  simp [logged, Memory.Contents.record]

variable {p : Partition} {s t : State Memory.View}

theorem settle_eq (s : State Memory.View) : settle s = fun t => .ok (s.draft.settled t) := by
  funext t
  obtain ⟨⟨p, id⟩, existed⟩ := t
  simp only [settle, Memory.View.find?_eq]
  rfl

theorem recordOf_ok {time : Instant} {r : UInt64} {change : Change} {record : RevisionRecord}
    (run : ConceptStore.recordOf time p r change = .ok record) :
    record = ⟨p, change.id, change.conceptType, r, change.state, time⟩ := by
  unfold ConceptStore.recordOf at run
  split at run
  · split at run <;> cases run
    rfl
  · rename_i gone
    cases run
    rw [gone]

theorem logChanges_ok {r : UInt64} {changed : List Change} {records : List RevisionRecord}
    {v w : Memory.View} (run : ConceptStore.logChanges p r changed v = (.ok records, w)) :
    records = (changed.map fun c => ⟨p, c.id, c.conceptType, r, c.state, v.time⟩) ∧
      w = { v with contents := v.contents.record records } := by
  obtain ⟨made, made, rest⟩ := look_bind_eq_ok_iff.mp run
  obtain ⟨_, _, appended, rest⟩ := bind_eq_ok_iff.mp rest
  obtain ⟨rfl, rfl⟩ := pure_eq_ok_iff.mp rest
  exact ⟨eq_map_of_mapM (fun c _ _ => recordOf_ok) made, Memory.View.append_ok appended⟩

theorem logPartition_ok {changes : List (Partition × Change)} {u : Unit}
    (run : logPartition changes p s = (.ok u, t)) :
    t = logged s ((changes.filter fun x => x.1 = p).map (recordAt s.allocated s.view.time)) := by
  obtain ⟨taken, _, asked, rest⟩ := bind_eq_ok_iff.mp run
  obtain ⟨known, rfl⟩ := gets_eq_ok_iff.mp asked
  cases taken with
  | none => exact absurd rest fault_ne_ok
  | some r =>
    obtain ⟨_, s₁, told, rest⟩ := bind_eq_ok_iff.mp rest
    obtain ⟨-, rfl⟩ := pure_eq_ok_iff.mp rest
    obtain ⟨v, recorded, rfl⟩ := onView_ok told
    obtain ⟨rfl, rfl⟩ := logChanges_ok recorded
    rw [List.map_map]
    congr 1
    have same : ∀ x ∈ changes.filter fun x => x.1 = p,
        recordAt s.allocated s.view.time x =
          ⟨p, x.2.id, x.2.conceptType, r, x.2.state, s.view.time⟩ := by
      intro x member
      obtain rfl : x.1 = p := by simpa using (List.mem_filter.mp member).2
      simp [recordAt, known]
    rw [List.map_congr_left same]
    rfl

theorem logPartitions_ok {changes : List (Partition × Change)} {partitions : List Partition}
    {u : Unit} (run : forEach (logPartition changes) partitions s = (.ok u, t)) :
    t = logged s ((partitions.flatMap fun q => changes.filter fun x => x.1 = q).map
      (recordAt s.allocated s.view.time)) := by
  induction partitions generalizing s with
  | nil =>
    obtain ⟨-, rfl⟩ := pure_eq_ok_iff.mp run
    exact (logged_nil s).symm
  | cons q rest ih =>
    obtain ⟨_, s₁, first, later⟩ := bind_eq_ok_iff.mp run
    have first := logPartition_ok first
    rw [ih later, first, logged_logged, List.flatMap_cons, List.map_append]
    rfl

/-- Sorting a list by keys that are listed once each only changes its order. -/
theorem flatMap_filter_perm {α κ : Type} [DecidableEq κ] (key : α → κ) {keys : List κ}
    (nodup : keys.Nodup) (l : List α) :
    (keys.flatMap fun k => l.filter fun a => key a = k).Perm (l.filter fun a => key a ∈ keys) := by
  induction keys with
  | nil => simp
  | cons k rest ih =>
    obtain ⟨apart, tail⟩ := List.nodup_cons.mp nodup
    rw [List.flatMap_cons]
    refine ((ih tail).append_left _).trans ?_
    have here : (l.filter fun a => key a ∈ k :: rest).filter (fun a => key a = k) =
        l.filter fun a => key a = k := by
      rw [List.filter_filter]
      refine List.filter_congr fun a _ => ?_
      by_cases same : key a = k <;> simp [same]
    have there : (l.filter fun a => key a ∈ k :: rest).filter (fun a => !decide (key a = k)) =
        l.filter fun a => key a ∈ rest := by
      rw [List.filter_filter]
      refine List.filter_congr fun a _ => ?_
      by_cases same : key a = k
      · simp [same, apart]
      · simp [same]
    rw [← here, ← there]
    exact List.filter_append_perm _ _

/-- The changes in the order in which they are logged: by partition, and in each as they came. -/
def byPartition (changes : List (Partition × Change)) : List (Partition × Change) :=
  (SortedSet.ofMembers (changes.map (·.1))).elements.flatMap fun q =>
    changes.filter fun x => x.1 = q

theorem byPartition_perm (changes : List (Partition × Change)) :
    (byPartition changes).Perm changes := by
  refine (flatMap_filter_perm Prod.fst (SortedSet.elements_nodup _) changes).trans ?_
  rw [List.filter_eq_self.mpr]
  intro x member
  simpa [SortedSet.mem_elements_ofMembers] using ⟨x.2, member⟩

/-- The answer of a batch that ends with a draft. -/
def Draft.outcome (d : Draft) (p : Partition) : BatchOutcome :=
  { revision := d.allocated.find? p
    revisions := d.allocated
    concepts := d.changes.filterMap (·.2.state)
    removed := (d.changes.filter fun x => x.2.state.isNone).map (·.2.id) }

/-- What the end of a batch adds to the log and answers. -/
theorem finish_eq {outcome : BatchOutcome} (run : finish p s = (.ok outcome, t)) :
    t.view.contents = s.view.contents.record
        ((byPartition s.draft.changes).map (recordAt s.allocated s.view.time)) ∧
      outcome = s.draft.outcome p := by
  obtain ⟨settled, settled', rest⟩ := look_bind_eq_ok_iff.mp run
  rw [settle_eq, mapM_eq_ok (g := s.draft.settled) fun _ _ => rfl] at settled'
  obtain rfl : s.touched.map s.draft.settled = settled := Except.ok.inj settled'
  have changes : (s.touched.map s.draft.settled).filterMap id = s.draft.changes := by
    simp [Draft.changes, State.draft, List.filterMap_map]
  obtain ⟨_, s₁, told, rest⟩ := bind_eq_ok_iff.mp rest
  obtain ⟨_, _, asked, rest⟩ := bind_eq_ok_iff.mp rest
  obtain ⟨rfl, rfl⟩ := gets_eq_ok_iff.mp asked
  obtain ⟨answer, rfl⟩ := pure_eq_ok_iff.mp rest
  rw [changes] at answer told
  have told := logPartitions_ok told
  refine ⟨congrArg (·.view.contents) told, ?_⟩
  rw [← answer, told]
  rfl

/-- The same, where the order of the new records does not matter. -/
theorem finish_ok {outcome : BatchOutcome} (run : finish p s = (.ok outcome, t)) :
    ∃ records, t.view.contents = s.view.contents.record records ∧
      records.Perm (s.draft.changes.map (recordAt s.allocated s.view.time)) ∧
      outcome =
        { revision := s.allocated.find? p
          revisions := s.allocated
          concepts := s.draft.changes.filterMap (·.2.state)
          removed := (s.draft.changes.filter fun x => x.2.state.isNone).map (·.2.id) } := by
  obtain ⟨contents, answer⟩ := finish_eq run
  exact ⟨_, contents, (byPartition_perm _).map _, answer⟩

end ConceptLedger.Batch
