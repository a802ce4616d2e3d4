import ConceptLedger.Proofs.Batch.Audit

/-!
The end of a batch succeeds. On a store in memory that takes what is written to its log, nothing can
go wrong once all operations have run: every touched partition has its revision, every changed
state carries it, and the log has no entry under it yet.
-/

namespace ConceptLedger

namespace Memory.View

open Step

variable {v : View}

/-- Records whose places in the log are free and different from each other can all be appended. -/
theorem appendEach_fresh {records : List RevisionRecord}
    (fresh : ∀ r ∈ records, v.contents.logged r = false)
    (distinct : records.Pairwise fun a b =>
      ¬ (a.partition = b.partition ∧ a.conceptId = b.conceptId ∧ a.revision = b.revision)) :
    forEach appendOne records v = (.ok (), { v with contents := v.contents.record records }) := by
  induction records generalizing v with
  | nil => simp [forEach, pure, Step.pure, Contents.record]
  | cons r rest ih =>
    obtain ⟨apart, tail⟩ := List.pairwise_cons.mp distinct
    have free : v.contents.logged r = false := fresh r List.mem_cons_self
    have first : appendOne r v = (.ok (), { v with contents := v.contents.record [r] }) := by
      have asked : Step.gets (fun v : View => v.contents.logged r) v = (.ok false, v) := by
        simp [gets, free]
      exact (bind_of_ok asked).trans rfl
    have later : ∀ q ∈ rest,
        ({ v with contents := v.contents.record [r] } : View).contents.logged q = false := by
      intro q member
      have before := fresh q (List.mem_cons_of_mem _ member)
      have differs := apart q member
      simp only [Contents.logged, Contents.record, List.any_append, Bool.or_eq_false_iff]
      exact ⟨before, by simpa using differs⟩
    show (appendOne r >>= fun _ => forEach appendOne rest) v = _
    rw [bind_of_ok first, ih later tail]
    simp [Contents.record]

theorem append_fresh {records : List RevisionRecord} (writable : v.writable = true)
    (accepts : v.rejectsLog = false) (fresh : ∀ r ∈ records, v.contents.logged r = false)
    (distinct : records.Pairwise fun a b =>
      ¬ (a.partition = b.partition ∧ a.conceptId = b.conceptId ∧ a.revision = b.revision)) :
    append records v = (.ok (), { v with contents := v.contents.record records }) := by
  have guarded : guardWrite "append_revisions" v = (.ok (), v) := by
    simp [guardWrite, look, writable]
  have asked : Step.gets (fun v : View => v.rejectsLog) v = (.ok false, v) := by
    simp [gets, accepts]
  unfold append
  rw [bind_of_ok guarded, bind_of_ok asked]
  exact appendEach_fresh fresh distinct

end Memory.View

namespace Batch

open Step

variable {b : Memory.Contents} {d d' : Draft} {s t : State Memory.View} {p : Partition}

/-- A batch changes nothing of its view but the contents. -/
theorem Writes.view (run : Writes d d') :
    ∃ contents, d'.view = { d.view with contents := contents } := by
  refine Writes.keeps (I := fun e => ∃ contents, e.view = { d.view with contents := contents }) ?_
    ⟨d.view.contents, rfl⟩ run
  rintro e e' ⟨contents, same⟩ step
  have marked : ∀ (a : Address) existed, (e.mark a existed).view = e.view := by
    intro a existed
    unfold Draft.mark
    split <;> rfl
  cases step with
  | take untaken room =>
    rw [Draft.allot_of_untaken untaken]
    simp [Draft.edit, same]
  | add | replace => simp [Draft.put, Draft.edit, marked, same]
  | remove => simp [Draft.drop, Draft.edit, marked, same]

/-- The changes of a partition. -/
def changesIn (changes : List (Partition × Change)) (p : Partition) : List Change :=
  (changes.filter fun x => x.1 = p).map (·.2)

theorem mem_changesIn {changes : List (Partition × Change)} {c : Change} :
    c ∈ changesIn changes p ↔ (p, c) ∈ changes := by
  simp [changesIn]

/-- The record of a change in a partition under a revision. -/
def recordUnder (p : Partition) (r : UInt64) (time : Instant) (change : Change) : RevisionRecord :=
  ⟨p, change.id, change.conceptType, r, change.state, time⟩

theorem recordOf_stamped {time : Instant} {r : UInt64} {change : Change}
    (stamped : ∀ c ∈ change.state, c.revisionNumber = r) :
    ConceptStore.recordOf time p r change = .ok (recordUnder p r time change) := by
  unfold ConceptStore.recordOf
  split
  · rename_i state present
    rw [if_pos (stamped state present)]
    rfl
  · rename_i absent
    rw [recordUnder, absent]

/-- What makes the changes of a partition fit for the log: the partition has a revision, which the
changed states carry, under which nothing is logged yet, and no concept is there twice. -/
structure Fit (s : State Memory.View) (changes : List (Partition × Change)) (p : Partition) :
    Prop where
  taken : (s.allocated.find? p).isSome = true
  stamped : ∀ x ∈ changes, x.1 = p → ∀ c ∈ x.2.state, s.allocated.find? p = some c.revisionNumber
  fresh : ∀ r ∈ s.view.contents.log, r.partition = p → s.allocated.find? p ≠ some r.revision

section Records

variable {changes : List (Partition × Change)} {r : UInt64}

theorem Fit.recorded (fit : Fit s changes p) (taken : s.allocated.find? p = some r)
    (time : Instant) : (changesIn changes p).mapM (ConceptStore.recordOf time p r) =
      .ok ((changesIn changes p).map (recordUnder p r time)) := by
  refine mapM_eq_ok fun c member => recordOf_stamped fun state present => ?_
  have known := fit.stamped (p, c) (mem_changesIn.mp member) rfl state present
  exact (Option.some.inj (taken.symm.trans known)).symm

theorem Fit.unlogged (fit : Fit s changes p) (taken : s.allocated.find? p = some r)
    (time : Instant) : ∀ q ∈ (changesIn changes p).map (recordUnder p r time),
      s.view.contents.logged q = false := by
  intro q member
  obtain ⟨c, -, rfl⟩ := List.mem_map.mp member
  simp only [Memory.Contents.logged, List.any_eq_false, decide_eq_true_eq]
  rintro q inLog ⟨there, -, same⟩
  exact fit.fresh q inLog there (by rw [taken, same]; rfl)

/-- Changes at different addresses are recorded at different places in the log. -/
theorem recordUnder_apart (once : (changes.map changedAt).Nodup) (time : Instant) :
    ((changesIn changes p).map (recordUnder p r time)).Pairwise fun a b =>
      ¬ (a.partition = b.partition ∧ a.conceptId = b.conceptId ∧ a.revision = b.revision) := by
  have apart : (changes.filter fun x => x.1 = p).Pairwise fun x y => changedAt x ≠ changedAt y :=
    (List.pairwise_map.mp once).filter _
  rw [changesIn, List.pairwise_map, List.pairwise_map]
  refine apart.imp_of_mem fun {x y} inX inY differs => ?_
  have atX : x.1 = p := by simpa using (List.mem_filter.mp inX).2
  have atY : y.1 = p := by simpa using (List.mem_filter.mp inY).2
  rintro ⟨-, same, -⟩
  have ids : x.2.id = y.2.id := same
  exact differs (by rw [changedAt, changedAt, atX, atY, ids])

theorem logPartition_fit (writable : s.view.writable = true) (accepts : s.view.rejectsLog = false)
    (once : (changes.map changedAt).Nodup) (fit : Fit s changes p) :
    ∃ t, logPartition changes p s = (.ok (), t) := by
  obtain ⟨r, taken⟩ := Option.isSome_iff_exists.mp fit.taken
  let made := (changesIn changes p).map (recordUnder p r s.view.time)
  have looked : Step.look (fun v : Memory.View =>
      (changesIn changes p).mapM (ConceptStore.recordOf v.time p r)) s.view =
        (.ok made, s.view) := Prod.ext (fit.recorded taken _) rfl
  have logging : ConceptStore.logChanges p r (changesIn changes p) s.view =
      (.ok made, { s.view with contents := s.view.contents.record made }) :=
    (bind_of_ok looked).trans ((bind_of_ok (Memory.View.append_fresh writable accepts
      (fit.unlogged taken _) (recordUnder_apart once _))).trans rfl)
  have told : onView (ConceptStore.logChanges p r (changesIn changes p)) s =
      (.ok made, logged s made) := by
    simp only [onView, zoom, logging]
    rfl
  have asked : Step.gets (fun s : State Memory.View => s.allocated.find? p) s = (.ok (some r), s) := by
    simp [gets, taken]
  exact ⟨logged s made, (bind_of_ok asked).trans ((bind_of_ok told).trans rfl)⟩

end Records

/-- Partitions are logged one after the other. What is logged in one leaves the others fit. -/
theorem logPartitions_fit {changes : List (Partition × Change)} {partitions : List Partition}
    (writable : s.view.writable = true) (accepts : s.view.rejectsLog = false)
    (once : (changes.map changedAt).Nodup) (nodup : partitions.Nodup)
    (fit : ∀ q ∈ partitions, Fit s changes q) :
    ∃ t, forEach (logPartition changes) partitions s = (.ok (), t) := by
  induction partitions generalizing s with
  | nil => exact ⟨s, rfl⟩
  | cons q rest ih =>
    obtain ⟨apart, tail⟩ := List.nodup_cons.mp nodup
    obtain ⟨s₁, first⟩ := logPartition_fit writable accepts once (fit q List.mem_cons_self)
    have after := logPartition_ok first
    have later : ∀ q' ∈ rest, Fit s₁ changes q' := by
      intro q' member
      have before := fit q' (List.mem_cons_of_mem _ member)
      have other : q' ≠ q := fun same => apart (same ▸ member)
      subst after
      refine ⟨before.taken, before.stamped, fun r inLog there => ?_⟩
      rcases List.mem_append.mp inLog with former | new
      · exact before.fresh r former there
      · obtain ⟨x, inside, rfl⟩ := List.mem_map.mp new
        have here : x.1 = q := by simpa using (List.mem_filter.mp inside).2
        exact absurd (there.symm.trans here) other
    obtain ⟨t, rest'⟩ := ih (by rw [after]; exact writable) (by rw [after]; exact accepts) tail later
    exact ⟨t, (bind_of_ok first).trans rest'⟩

/-- The changes of a batch fit for the log, in every partition where there are any. -/
theorem Tracks.fit (tracks : Tracks b s.draft)
    (recorded : ∀ r ∈ b.log, r.revision ≤ b.counter r.partition) {x : Partition × Change}
    (change : x ∈ s.draft.changes) : Fit s s.draft.changes x.1 where
  taken := by
    obtain ⟨t, touched, place⟩ := List.mem_map.mp (Draft.state_of_change change).2
    have taken := tracks.taken t touched
    rw [place] at taken
    exact taken
  stamped y listed here c present := by
    obtain ⟨state, known⟩ := Draft.state_of_change listed
    rw [← here]
    exact tracks.stamped _ c (Draft.isTouched_iff.mpr known) (state.symm.trans present)
  fresh r inLog there same := by
    -- the revision of the batch is above the counter it found, and all that was logged is below
    have inLog : r ∈ b.log := by
      rw [← tracks.log]
      exact inLog
    have above := (tracks.raised _ _ same).1
    rw [← there] at above
    exact absurd (recorded r inLog) (UInt64.not_le.mpr above)

/-- When all operations have run, the batch can be recorded. -/
theorem finish_succeeds (tracks : Tracks b s.draft)
    (recorded : ∀ r ∈ b.log, r.revision ≤ b.counter r.partition)
    (writable : s.view.writable = true) (accepts : s.view.rejectsLog = false) :
    ∃ outcome t, finish p s = (.ok outcome, t) := by
  have settled : s.touched.mapM (settle s) = .ok (s.touched.map s.draft.settled) := by
    rw [settle_eq]
    exact mapM_eq_ok fun _ _ => rfl
  have changes : (s.touched.map s.draft.settled).filterMap id = s.draft.changes := by
    simp [Draft.changes, State.draft, List.filterMap_map]
  have fit : ∀ q ∈ (SortedSet.ofMembers (s.draft.changes.map (·.1))).elements,
      Fit s s.draft.changes q := by
    intro q member
    obtain ⟨x, change, rfl⟩ := List.mem_map.mp (SortedSet.mem_elements_ofMembers.mp member)
    exact tracks.fit recorded change
  obtain ⟨t, run⟩ := logPartitions_fit writable accepts
    (tracks.nodup.sublist s.draft.changed_sublist) (SortedSet.elements_nodup _) fit
  have looked : Step.look (fun s : State Memory.View => s.touched.mapM (settle s)) s =
      (.ok (s.touched.map s.draft.settled), s) := by
    show (s.touched.mapM (settle s), s) = _
    rw [settled]
  rw [← changes] at run
  exact ⟨_, t, (bind_of_ok looked).trans ((bind_of_ok run).trans rfl)⟩

end Batch

end ConceptLedger
