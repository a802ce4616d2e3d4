import ConceptLedger.Proofs.Batch.Write

/-!
What a running batch knows about its own changes. Its records of touched addresses, of removed
types and of revisions stay in step with the difference between the contents it began with and
those it has made of them.
-/

namespace ConceptLedger.Batch

/-- A draft that was made of given contents, with true records of what became of them. -/
structure Tracks (b : Memory.Contents) (d : Draft) : Prop where
  /-- Every address is touched once, and the first touch saw whether a concept was there. -/
  nodup : (d.touched.map (·.address)).Nodup
  existed : ∀ t ∈ d.touched, t.existed = (b.find? t.address.partition t.address.id).isSome
  /-- Touching comes after taking a revision. -/
  taken : ∀ t ∈ d.touched, (d.allocated.find? t.address.partition).isSome = true
  /-- An untouched address is as it was. -/
  untouched : ∀ a, d.isTouched a = false → d.find? a.partition a.id = b.find? a.partition a.id
  /-- A touched concept carries the revision of the batch. -/
  stamped : ∀ a c, d.isTouched a = true → d.find? a.partition a.id = some c →
    d.allocated.find? a.partition = some c.revisionNumber
  /-- The type of a concept that is gone is on record. -/
  removed : ∀ a, (b.find? a.partition a.id).isSome = true → d.find? a.partition a.id = none →
    (d.removed.find? a).isSome = true
  /-- A revision that was taken is the new counter, above the former one. -/
  raised : ∀ p r, d.allocated.find? p = some r → b.counter p < r ∧ d.contents.counter p = r
  /-- The other counters are as they were. -/
  free : ∀ p, d.allocated.find? p = none → d.contents.counter p = b.counter p
  log : d.contents.log = b.log

namespace Draft

variable {d : Draft}

theorem isTouched_iff {a : Address} : d.isTouched a = true ↔ a ∈ d.touched.map (·.address) := by
  simp [isTouched]

theorem touched_mark (a : Address) (existed : Bool) :
    (d.mark a existed).touched = if d.isTouched a then d.touched else d.touched ++ [⟨a, existed⟩] := by
  unfold mark
  split <;> rfl

theorem isTouched_mark {a q : Address} {existed : Bool} :
    (d.mark a existed).isTouched q = true ↔ d.isTouched q = true ∨ q = a := by
  rw [isTouched_iff, isTouched_iff, touched_mark]
  split
  · rename_i before
    have member := isTouched_iff.mp before
    exact ⟨Or.inl, fun either => either.elim id fun same => same ▸ member⟩
  · simp

theorem isTouched_put {p : Partition} {c : Concept} {existed : Bool} {q : Address} :
    (d.put p c existed).isTouched q = true ↔ d.isTouched q = true ∨ q = ⟨p, c.id⟩ :=
  isTouched_mark

theorem isTouched_drop {p : Partition} {entry : ConceptId × ConceptType} {q : Address} :
    (d.drop p entry).isTouched q = true ↔ d.isTouched q = true ∨ q = ⟨p, entry.1⟩ :=
  isTouched_mark

@[simp] theorem contents_mark (a : Address) (existed : Bool) :
    (d.mark a existed).contents = d.contents := by
  unfold mark
  split <;> rfl

@[simp] theorem removed_mark (a : Address) (existed : Bool) :
    (d.mark a existed).removed = d.removed := by
  unfold mark
  split <;> rfl

theorem contents_put (p : Partition) (c : Concept) (existed : Bool) :
    (d.put p c existed).contents = d.contents.put p c := by
  rw [← d.contents_mark ⟨p, c.id⟩ existed]
  rfl

theorem contents_drop (p : Partition) (entry : ConceptId × ConceptType) :
    (d.drop p entry).contents = d.contents.drop p entry.1 := by
  rw [← d.contents_mark ⟨p, entry.1⟩ true]
  rfl

theorem removed_put (p : Partition) (c : Concept) (existed : Bool) :
    (d.put p c existed).removed = d.removed := d.removed_mark _ _

theorem removed_drop (p : Partition) (entry : ConceptId × ConceptType) :
    (d.drop p entry).removed = d.removed.insert ⟨p, entry.1⟩ entry.2 := rfl

theorem allot_of_untaken {p : Partition} (untaken : d.allocated.find? p = none) :
    d.allot p = { d.edit (·.count p (d.revision p)) with
      allocated := d.allocated.insert p (d.revision p) } := by
  have next : d.revision p = d.contents.counter p + 1 := by simp [revision, untaken]
  simp only [allot, untaken, next]

theorem find?_allocated_allot {p : Partition} (untaken : d.allocated.find? p = none)
    (q : Partition) : (d.allot p).allocated.find? q =
      if q = p then some (d.revision p) else d.allocated.find? q := by
  rw [allot_of_untaken untaken]
  exact SortedMap.find?_insert _ _ _ _

theorem counter_allot {p : Partition} (untaken : d.allocated.find? p = none) (q : Partition) :
    (d.allot p).contents.counter q =
      if q = p then d.revision p else d.contents.counter q := by
  rw [allot_of_untaken untaken]
  exact Memory.Contents.counter_count _ _ _ _

theorem touched_allot (p : Partition) : (d.allot p).touched = d.touched := by
  unfold allot
  split <;> rfl

theorem isTouched_allot (p : Partition) (a : Address) :
    (d.allot p).isTouched a = d.isTouched a := by
  rw [isTouched, isTouched, touched_allot]

end Draft

namespace Tracks

variable {b : Memory.Contents} {d : Draft} {p : Partition}

/-- A batch begins without changes. -/
theorem start {s : State Memory.View} (fresh : s.draft = ⟨s.view, [], .empty, .empty⟩) :
    Tracks s.view.contents s.draft := by
  rw [fresh]
  constructor <;> simp [Draft.isTouched, Draft.find?, Draft.contents]
  · intro a present gone
    rw [gone] at present
    cases present

theorem nodup_mark (tracks : Tracks b d) (a : Address) (existed : Bool) :
    ((d.mark a existed).touched.map (·.address)).Nodup := by
  rw [Draft.touched_mark]
  split
  · exact tracks.nodup
  · rename_i fresh
    have apart : a ∉ d.touched.map (·.address) := fun member => fresh (Draft.isTouched_iff.mpr member)
    rw [List.map_append]
    refine List.nodup_append.mpr ⟨tracks.nodup, by simp, ?_⟩
    rintro x member y new rfl
    obtain rfl : x = a := by simpa using new
    exact apart member

/-- Touching keeps the records true if the touch tells what is stored at the moment. -/
theorem existed_mark (tracks : Tracks b d) {a : Address} {existed : Bool}
    (here : existed = (d.find? a.partition a.id).isSome) :
    ∀ t ∈ (d.mark a existed).touched,
      t.existed = (b.find? t.address.partition t.address.id).isSome := by
  intro t member
  rw [Draft.touched_mark] at member
  split at member
  · exact tracks.existed t member
  · rename_i fresh
    rcases List.mem_append.mp member with before | new
    · exact tracks.existed t before
    · obtain rfl : t = ⟨a, existed⟩ := by simpa using new
      rw [← tracks.untouched a (by simpa using fresh)]
      exact here

theorem taken_mark (tracks : Tracks b d) {a : Address} {existed : Bool}
    (taken : (d.allocated.find? a.partition).isSome = true) :
    ∀ t ∈ (d.mark a existed).touched,
      (d.allocated.find? t.address.partition).isSome = true := by
  intro t member
  rw [Draft.touched_mark] at member
  split at member
  · exact tracks.taken t member
  · rcases List.mem_append.mp member with before | new
    · exact tracks.taken t before
    · obtain rfl : t = ⟨a, existed⟩ := by simpa using new
      exact taken

/-- Putting a concept in place, new or over the stored one, under the revision of the batch. -/
theorem put (tracks : Tracks b d) {c : Concept} {existed : Bool}
    (here : existed = (d.find? p c.id).isSome)
    (stamped : d.allocated.find? p = some c.revisionNumber) : Tracks b (d.put p c existed) where
  nodup := tracks.nodup_mark _ _
  existed := tracks.existed_mark here
  taken := by
    rw [Draft.allocated_put]
    exact tracks.taken_mark (by rw [stamped]; rfl)
  untouched a quiet := by
    have quiet := (not_congr Draft.isTouched_put).mp (by simpa using quiet)
    obtain ⟨before, apart⟩ := not_or.mp quiet
    have other : ¬ (a.partition = p ∧ a.id = c.id) := fun same =>
      apart (by cases a; simp_all)
    rw [Draft.find?_put, if_neg other]
    exact tracks.untouched a (by simpa using before)
  stamped a c' touched found := by
    rw [Draft.allocated_put]
    rw [Draft.find?_put] at found
    split at found
    · rename_i same
      cases found
      rw [same.1]
      exact stamped
    · rename_i other
      have before := Draft.isTouched_put.mp touched
      refine tracks.stamped a c' (before.resolve_right ?_) found
      rintro rfl
      exact other ⟨rfl, rfl⟩
  removed a present gone := by
    rw [Draft.removed_put]
    rw [Draft.find?_put] at gone
    split at gone
    · cases gone
    · exact tracks.removed a present gone
  raised q r taken := by
    rw [Draft.contents_put]
    exact tracks.raised q r (by simpa using taken)
  free q untaken := by
    rw [Draft.contents_put]
    exact tracks.free q (by simpa using untaken)
  log := by
    rw [Draft.contents_put]
    exact tracks.log

/-- Removing a stored concept once a revision is taken. -/
theorem drop (tracks : Tracks b d) {entry : ConceptId × ConceptType}
    (present : (d.find? p entry.1).isSome = true)
    (taken : (d.allocated.find? p).isSome = true) : Tracks b (d.drop p entry) where
  nodup := tracks.nodup_mark _ _
  existed := tracks.existed_mark present.symm
  taken := by
    rw [Draft.allocated_drop]
    exact tracks.taken_mark taken
  untouched a quiet := by
    have quiet := (not_congr Draft.isTouched_drop).mp (by simpa using quiet)
    obtain ⟨before, apart⟩ := not_or.mp quiet
    have other : ¬ (a.partition = p ∧ a.id = entry.1) := fun same =>
      apart (by cases a; simp_all)
    rw [Draft.find?_drop, if_neg other]
    exact tracks.untouched a (by simpa using before)
  stamped a c' touched found := by
    rw [Draft.allocated_drop]
    rw [Draft.find?_drop] at found
    split at found
    · cases found
    · rename_i other
      have before := Draft.isTouched_drop.mp touched
      refine tracks.stamped a c' (before.resolve_right ?_) found
      rintro rfl
      exact other ⟨rfl, rfl⟩
  removed a stored gone := by
    rw [Draft.removed_drop, SortedMap.find?_insert]
    split
    · rfl
    · rename_i apart
      rw [Draft.find?_drop] at gone
      have other : ¬ (a.partition = p ∧ a.id = entry.1) := fun same =>
        apart (by cases a; simp_all)
      rw [if_neg other] at gone
      exact tracks.removed a stored gone
  raised q r known := by
    rw [Draft.contents_drop]
    exact tracks.raised q r (by simpa using known)
  free q untaken := by
    rw [Draft.contents_drop]
    exact tracks.free q (by simpa using untaken)
  log := by
    rw [Draft.contents_drop]
    exact tracks.log

/-- Taking the revision of a partition for the first time. -/
theorem take (tracks : Tracks b d) (untaken : d.allocated.find? p = none)
    (room : d.contents.counter p < d.revision p) : Tracks b (d.allot p) where
  nodup := by
    rw [Draft.touched_allot]
    exact tracks.nodup
  existed := by
    rw [Draft.touched_allot]
    exact tracks.existed
  taken t member := by
    rw [Draft.touched_allot] at member
    rw [Draft.find?_allocated_allot untaken]
    split
    · rfl
    · exact tracks.taken t member
  untouched a quiet := by
    rw [Draft.find?_allot]
    exact tracks.untouched a (by rwa [Draft.isTouched_allot] at quiet)
  stamped a c known stored := by
    rw [Draft.find?_allot] at stored
    have before := tracks.stamped a c (by rwa [Draft.isTouched_allot] at known) stored
    rw [Draft.find?_allocated_allot untaken, if_neg]
    · exact before
    · intro same
      rw [same, untaken] at before
      cases before
  removed a present gone := by
    rw [Draft.find?_allot] at gone
    rw [Draft.allot_of_untaken untaken]
    exact tracks.removed a present gone
  raised q r known := by
    rw [Draft.find?_allocated_allot untaken] at known
    rw [Draft.counter_allot untaken]
    split at known
    · rename_i same
      cases known
      rw [if_pos same, same, ← tracks.free p untaken]
      exact ⟨room, rfl⟩
    · rename_i apart
      rw [if_neg apart]
      exact tracks.raised q r known
  free q known := by
    rw [Draft.find?_allocated_allot untaken] at known
    rw [Draft.counter_allot untaken]
    split at known
    · cases known
    · rename_i apart
      rw [if_neg apart]
      exact tracks.free q known
  log := by
    rw [Draft.allot_of_untaken untaken]
    exact tracks.log

/-- Every write keeps the records true. -/
theorem write {d' : Draft} (tracks : Tracks b d) (step : Write d d') : Tracks b d' := by
  cases step with
  | take untaken room => exact tracks.take untaken room
  | add absent stamped => exact tracks.put (by rw [absent]; rfl) stamped
  | replace present stamped => exact tracks.put present.symm stamped
  | remove present taken => exact tracks.drop present taken

theorem writes {d' : Draft} (tracks : Tracks b d) (run : Writes d d') : Tracks b d' :=
  Writes.keeps (fun _ _ before step => before.write step) tracks run

end Tracks

end ConceptLedger.Batch
