import ConceptLedger.Proofs.Batch.Finish

/-!
The audit of a batch: how its outcome and the records it adds to the log account for the
difference between the contents before and after it.
-/

namespace ConceptLedger

namespace RevisionRecord

/-- The address that a record is about. -/
def address (r : RevisionRecord) : Address := ⟨r.partition, r.conceptId⟩

end RevisionRecord

namespace Memory.Contents

/-- The current concept at an address. -/
def at? (s : Contents) (a : Address) : Option Concept := s.find? a.partition a.id

/-- Every concept is stored under its own identifier. -/
def Keyed (s : Contents) : Prop := ∀ a c, s.at? a = some c → c.id = a.id

theorem Keyed.put {s : Contents} {p : Partition} {c : Concept} (keyed : s.Keyed) :
    (s.put p c).Keyed := by
  intro a c' found
  rw [at?, find?_put] at found
  split at found
  · rename_i here
    cases found
    exact here.2.symm
  · exact keyed a c' found

theorem Keyed.drop {s : Contents} {p : Partition} {id : ConceptId} (keyed : s.Keyed) :
    (s.drop p id).Keyed := by
  intro a c found
  rw [at?, find?_drop] at found
  split at found
  · cases found
  · exact keyed a c found

/-- No concept carries a revision that the counter has not reached. -/
def Stamped (s : Contents) : Prop := ∀ a c, s.at? a = some c → c.revisionNumber ≤ s.counter a.partition

end Memory.Contents

namespace Batch

/-- The changed addresses and the new records of a batch, and how they relate to its outcome and
to the contents before and after it. -/
structure Audit (before after : Memory.Contents) (outcome : BatchOutcome) (changed : List Address)
    (records : List RevisionRecord) : Prop where
  once : changed.Nodup
  exact : ∀ a, a ∈ changed ↔ before.at? a ≠ after.at? a
  log : after.log = before.log ++ records
  recorded : (records.map RevisionRecord.address).Perm changed
  states : ∀ r ∈ records, r.state = after.at? r.address
  revisions : ∀ r ∈ records, outcome.revisions.find? r.partition = some r.revision
  stamps : ∀ a ∈ changed, ∀ c, after.at? a = some c →
    outcome.revisions.find? a.partition = some c.revisionNumber
  concepts : outcome.concepts = changed.filterMap after.at?
  removed : outcome.removed = (changed.filter fun a => (after.at? a).isNone).map (·.id)
  counters : ∀ p, after.counter p = (outcome.revisions.find? p).getD (before.counter p)
  raised : ∀ p r, outcome.revisions.find? p = some r → before.counter p < r

theorem Write.keyed {d d' : Draft} (keyed : d.contents.Keyed) (step : Write d d') :
    d'.contents.Keyed := by
  cases step with
  | take untaken room =>
    rw [Draft.allot_of_untaken untaken]
    exact keyed
  | add | replace =>
    rw [Draft.contents_put]
    exact keyed.put
  | remove =>
    rw [Draft.contents_drop]
    exact keyed.drop

theorem Effect.keyed {env : Setting} {p : Partition} {d d' : Draft} {operation : Operation}
    {cascades : List Cascade} (keyed : d.contents.Keyed)
    (effect : Effect env p d operation cascades d') : d'.contents.Keyed :=
  Writes.keeps (I := fun d => d.contents.Keyed) (fun _ _ keyed write => write.keyed keyed) keyed
    (.of_effect effect)

section Changes

variable {b : Memory.Contents} {d : Draft}

theorem settled_eq_some {d : Draft} {t : Touch} {x : Partition × Change}
    (settled : d.settled t = some x) : changedAt x = t.address ∧ x.2.state = d.contents.at? t.address := by
  unfold Draft.settled at settled
  split at settled
  · rename_i c _ _ stored
    cases settled
    exact ⟨rfl, stored.symm⟩
  · rename_i type gone _ _
    cases settled
    exact ⟨rfl, gone.symm⟩
  · cases settled

theorem filterMap_sublist {α β : Type} {f : α → Option β} {g : α → β}
    (values : ∀ a b, f a = some b → b = g a) (l : List α) : (l.filterMap f).Sublist (l.map g) := by
  induction l with
  | nil => exact .slnil
  | cons a rest ih =>
    cases here : f a with
    | none =>
      rw [List.filterMap_cons_none here]
      exact ih.cons _
    | some b =>
      rw [List.filterMap_cons_some here, values a b here]
      exact ih.cons_cons _

theorem Draft.changed_sublist (d : Draft) :
    (d.changes.map changedAt).Sublist (d.touched.map (·.address)) := by
  rw [Draft.changes, List.map_filterMap]
  refine filterMap_sublist (fun t a found => ?_) d.touched
  obtain ⟨x, settled, rfl⟩ := Option.map_eq_some_iff.mp found
  exact (settled_eq_some settled).1

/-- The changes of a batch are at the addresses whose state differs. A new state differs from the
former one at least in its revision. -/
theorem Tracks.mem_changed (tracks : Tracks b d) (stamped : b.Stamped) {a : Address} :
    a ∈ d.changes.map changedAt ↔ b.at? a ≠ d.contents.at? a := by
  constructor
  · rintro member same
    obtain ⟨x, change, rfl⟩ := List.mem_map.mp member
    obtain ⟨t, touched, settled⟩ := List.mem_filterMap.mp change
    have place := (settled_eq_some settled).1
    rw [place] at same
    have known : d.isTouched t.address = true :=
      Draft.isTouched_iff.mpr (List.mem_map_of_mem touched)
    cases stored : d.contents.at? t.address with
    | some c =>
      have taken := tracks.stamped t.address c known stored
      have above := (tracks.raised _ _ taken).1
      have below := stamped t.address c (same.trans stored)
      exact absurd (UInt64.lt_of_lt_of_le above below) (UInt64.lt_irrefl _)
    | none =>
      have existed : t.existed = (b.at? t.address).isSome := tracks.existed t touched
      rw [same, stored] at existed
      have gone : d.find? t.address.partition t.address.id = none := stored
      simp [Draft.settled, gone, existed] at settled
  · intro differs
    have known : d.isTouched a = true := by
      by_contra quiet
      exact differs (tracks.untouched a (by simpa using quiet)).symm
    obtain ⟨t, touched, rfl⟩ := List.mem_map.mp (Draft.isTouched_iff.mp known)
    suffices settles : (d.settled t).isSome = true by
      obtain ⟨x, settled⟩ := Option.isSome_iff_exists.mp settles
      exact List.mem_map.mpr ⟨x, List.mem_filterMap.mpr ⟨t, touched, settled⟩,
        (settled_eq_some settled).1⟩
    unfold Draft.settled
    cases stored : d.find? t.address.partition t.address.id with
    | some c => rfl
    | none =>
      have before : (b.at? t.address).isSome = true := by
        rw [Option.isSome_iff_ne_none]
        exact fun absent => differs (absent.trans stored.symm)
      obtain ⟨type, removed⟩ :=
        Option.isSome_iff_exists.mp (tracks.removed t.address before stored)
      have existed : t.existed = true := (tracks.existed t touched).trans before
      rw [removed, existed]
      rfl

/-- The state of a change is what the draft has at its address. -/
theorem Draft.state_of_change {x : Partition × Change} (member : x ∈ d.changes) :
    x.2.state = d.contents.at? (changedAt x) ∧ changedAt x ∈ d.touched.map (·.address) := by
  obtain ⟨t, touched, settled⟩ := List.mem_filterMap.mp member
  obtain ⟨place, state⟩ := settled_eq_some settled
  rw [place]
  exact ⟨state, List.mem_map_of_mem touched⟩

end Changes

/-- A batch that succeeds on contents in order accounts for all it did. -/
theorem run_audit {env : Setting} {p : Partition} {operations : List Operation} {v : Memory.View}
    {ids : IdSupply} {outcome : BatchOutcome} {s : State Memory.View}
    (stamped : v.contents.Stamped)
    (run : run env p operations { view := v, ids } = (.ok outcome, s)) :
    ∃ changed records, Audit v.contents s.view.contents outcome changed records := by
  obtain ⟨_, s₁, applied, finished⟩ := Step.bind_eq_ok_iff.mp run
  have tracks : Tracks v.contents s₁.draft :=
    (Tracks.start (s := { view := v, ids }) rfl).writes (applyAll_writes applied)
  obtain ⟨records, contents, perm, rfl⟩ := finish_ok finished
  have same : ∀ a, s.view.contents.at? a = s₁.draft.contents.at? a := by
    intro a
    rw [contents]
    rfl
  have member : ∀ r ∈ records, ∃ x ∈ s₁.draft.changes, recordAt s₁.allocated s₁.view.time x = r :=
    fun r inside => List.mem_map.mp (perm.mem_iff.mp inside)
  refine ⟨s₁.draft.changes.map changedAt, records, ?_⟩
  constructor
  case once => exact tracks.nodup.sublist s₁.draft.changed_sublist
  case exact =>
    intro a
    rw [same]
    exact tracks.mem_changed stamped
  case log =>
    rw [contents, ← tracks.log]
    rfl
  case recorded =>
    have mapped := perm.map RevisionRecord.address
    rwa [List.map_map] at mapped
  case states =>
    intro r inside
    obtain ⟨x, change, rfl⟩ := member r inside
    rw [same]
    exact (Draft.state_of_change change).1
  case revisions =>
    intro r inside
    obtain ⟨x, change, rfl⟩ := member r inside
    obtain ⟨t, touched, place⟩ := List.mem_map.mp (Draft.state_of_change change).2
    have taken := tracks.taken t touched
    rw [place] at taken
    obtain ⟨n, known⟩ := Option.isSome_iff_exists.mp taken
    have known : s₁.allocated.find? x.1 = some n := known
    simp [recordAt, known]
  case stamps =>
    intro a member c found
    rw [same] at found
    obtain ⟨x, change, rfl⟩ := List.mem_map.mp member
    exact tracks.stamped _ c (Draft.isTouched_iff.mpr (Draft.state_of_change change).2) found
  case concepts =>
    rw [List.filterMap_map]
    refine List.filterMap_congr fun x change => ?_
    rw [Function.comp_apply, same]
    exact (Draft.state_of_change change).1
  case removed =>
    have gone : ∀ x ∈ s₁.draft.changes,
        x.2.state.isNone = (s.view.contents.at? (changedAt x)).isNone := by
      intro x change
      rw [same, (Draft.state_of_change change).1]
    rw [List.filter_map, List.map_map]
    exact congrArg (List.map _) (List.filter_congr gone)
  case counters =>
    intro q
    rw [show s.view.contents.counter q = s₁.draft.contents.counter q from by rw [contents]; rfl]
    cases taken : s₁.allocated.find? q with
    | none => exact tracks.free q taken
    | some n => exact (tracks.raised q n taken).2
  case raised => exact fun q n taken => (tracks.raised q n taken).1

theorem run_keyed {env : Setting} {p : Partition} {operations : List Operation} {v : Memory.View}
    {ids : IdSupply} {outcome : BatchOutcome} {s : State Memory.View} (keyed : v.contents.Keyed)
    (run : run env p operations { view := v, ids } = (.ok outcome, s)) :
    s.view.contents.Keyed := by
  obtain ⟨_, s₁, applied, finished⟩ := Step.bind_eq_ok_iff.mp run
  have before : s₁.draft.contents.Keyed :=
    Writes.keeps (I := fun d => d.contents.Keyed) (fun _ _ keyed step => step.keyed keyed)
      (show (State.draft { view := v, ids }).contents.Keyed from keyed) (applyAll_writes applied)
  obtain ⟨records, contents, -, -⟩ := finish_ok finished
  intro a c found
  rw [contents] at found
  exact before a c found

end Batch

end ConceptLedger
