import ConceptLedger.Proofs.Store.Reading

/-!
Reads of the past are time travel. The log keeps what every concept was at every revision of its
partition, so that a read at a revision answers what a live read answered while the counter had
not gone beyond it.
-/

namespace ConceptLedger.Memory

/-- The log ends with the current state of every concept. -/
def Contents.Logged (s : Contents) : Prop :=
  ∀ p id, s.find? p id = (s.latest? p id fun _ => true).bind (·.state)

/-- The newest of records with one more that is at least as new is that one. -/
theorem newest?_concat_of_le {l : List RevisionRecord} {r : RevisionRecord}
    (newer : ∀ b ∈ l, b.revision ≤ r.revision) : Contents.newest? (l ++ [r]) = some r := by
  rw [Reader.newest?_concat]
  cases best : Contents.newest? l with
  | none => rfl
  | some b => exact if_pos (newer b (Reader.newest?_mem best))

theorem mem_recordsOf {s : Contents} {p : Partition} {id : ConceptId} {r : RevisionRecord} :
    r ∈ s.recordsOf p id ↔ r ∈ s.log ∧ r.address = ⟨p, id⟩ := by
  simp [Contents.recordsOf, RevisionRecord.address]

/-- At a revision that the counter has not gone beyond, the log has the current states. -/
theorem stateAsOf_of_le {s : Contents} {p : Partition} {r : UInt64} (sound : s.Sound)
    (logged : s.Logged) (reached : s.counter p ≤ r) :
    s.stateAsOf p (.revision r) = s.find? p := by
  funext id
  rw [logged p id, Contents.stateAsOf, Contents.latest?, Contents.latest?]
  congr 2
  refine List.filter_congr fun x member => ?_
  obtain ⟨inside, address⟩ := mem_recordsOf.mp member
  have below := sound.recorded x inside
  rw [show x.partition = p from congrArg Address.partition address] at below
  exact decide_eq_true (UInt64.le_trans below reached)

end ConceptLedger.Memory

namespace ConceptLedger.Batch.Audit

open Memory

variable {before after : Contents} {outcome : BatchOutcome} {changed : List Address}
  {records : List RevisionRecord}

/-- A batch adds to the records of a concept just one with the new state, if it has changed, and
nothing otherwise. -/
theorem recordsOf (audit : Audit before after outcome changed records) (p : Partition)
    (id : ConceptId) :
    (before.find? p id = after.find? p id ∧ after.recordsOf p id = before.recordsOf p id) ∨
      ∃ r ∈ records, r.partition = p ∧ r.state = after.find? p id ∧
        after.recordsOf p id = before.recordsOf p id ++ [r] := by
  have split : after.recordsOf p id = before.recordsOf p id ++
      records.filter fun r => r.address = ⟨p, id⟩ := by
    simp only [Contents.recordsOf, audit.log, List.filter_append, RevisionRecord.address,
      Address.mk.injEq]
  have nodup : (records.map RevisionRecord.address).Nodup :=
    audit.recorded.nodup_iff.mpr audit.once
  by_cases change : (⟨p, id⟩ : Address) ∈ changed
  · right
    obtain ⟨r, member, here⟩ := List.mem_map.mp (audit.recorded.mem_iff.mpr change)
    refine ⟨r, member, congrArg Address.partition here, by rw [audit.states r member, here]; rfl, ?_⟩
    rw [split]
    congr 1
    -- the other new records are about other addresses
    obtain ⟨front, back, rfl⟩ := List.append_of_mem member
    rw [List.map_append, List.map_cons] at nodup
    have apart := (List.nodup_cons.mp (List.nodup_middle.mp nodup)).1
    rw [← List.map_append, here] at apart
    have others : ∀ x ∈ front ++ back, x.address ≠ ⟨p, id⟩ := fun x other same =>
      apart (same ▸ List.mem_map_of_mem other)
    rw [List.filter_append, List.filter_cons_of_pos (by simpa using here),
      List.filter_eq_nil_iff.mpr fun x inside => by
        simpa using others x (List.mem_append_left _ inside),
      List.filter_eq_nil_iff.mpr fun x inside => by
        simpa using others x (List.mem_append_right _ inside)]
    rfl
  · left
    have same : before.at? ⟨p, id⟩ = after.at? ⟨p, id⟩ := by
      by_contra differs
      exact change ((audit.exact _).mpr differs)
    refine ⟨same, ?_⟩
    rw [split, List.filter_eq_nil_iff.mpr, List.append_nil]
    intro x member here
    exact change (audit.recorded.mem_iff.mp
      (List.mem_map.mpr ⟨x, member, by simpa using here⟩))

/-- New records are newer than all former ones of their partition. -/
theorem newer (audit : Audit before after outcome changed records) (sound : before.Sound)
    {r b : RevisionRecord} (member : r ∈ records) (former : b ∈ before.log)
    (same : b.partition = r.partition) : b.revision < r.revision := by
  have reached := sound.recorded b former
  rw [same] at reached
  exact UInt64.lt_of_le_of_lt reached (audit.revision_eq member).2

theorem logged (audit : Audit before after outcome changed records) (sound : before.Sound)
    (logged : before.Logged) : after.Logged := by
  intro p id
  unfold Contents.latest?
  rw [List.filter_true]
  rcases audit.recordsOf p id with ⟨same, kept⟩ | ⟨r, member, rfl, state, grown⟩
  · rw [kept, ← same, logged p id, Contents.latest?, List.filter_true]
  · rw [grown, newest?_concat_of_le]
    · exact state.symm
    · intro b former
      obtain ⟨inside, address⟩ := mem_recordsOf.mp former
      exact UInt64.le_of_lt
        (audit.newer sound member inside (congrArg Address.partition address))

/-- A batch leaves the past of a partition as it was, up to the counter that it found there. -/
theorem stateAsOf (audit : Audit before after outcome changed records) {p : Partition} {r : UInt64}
    (past : r < after.counter p ∨ after.counter p = before.counter p) :
    after.stateAsOf p (.revision r) = before.stateAsOf p (.revision r) := by
  funext id
  unfold Contents.stateAsOf Contents.latest?
  rcases audit.recordsOf p id with ⟨-, kept⟩ | ⟨n, member, rfl, -, grown⟩
  · rw [kept]
  · obtain ⟨new, above⟩ := audit.revision_eq member
    rcases past with before | same
    · have beyond : ¬ n.revision ≤ r := UInt64.not_le.mpr (new ▸ before)
      rw [grown, List.filter_append, List.filter_cons_of_neg (by simpa [AsOf.includes] using beyond)]
      simp
    · rw [new, same] at above
      exact absurd above (UInt64.lt_irrefl _)

end ConceptLedger.Batch.Audit

namespace ConceptLedger.Memory

/-- After every history the log ends with the current states. -/
theorem logged_after (visits : List Visit) : (Database.after visits).contents.Logged :=
  (after_keeps (P := fun s => s.Sound ∧ s.Logged) (A := fun _ => True)
    ⟨Contents.sound_empty, fun _ _ => rfl⟩
    (fun _ _ _ _ _ _ before committed => by
      obtain ⟨changed, records, audit⟩ := committed.audit before.1.stamped
      exact ⟨committed.sound before.1, audit.logged before.1 before.2⟩)
    visits fun _ _ => trivial).2

/-- A visit either leaves the contents as they were or has an audit. -/
theorem Visit.audit (visits : List Visit) (v : Visit) :
    (Database.after (visits ++ [v])).contents = (Database.after visits).contents ∨
      ∃ outcome changed records, Batch.Audit (Database.after visits).contents
        (Database.after (visits ++ [v])).contents outcome changed records := by
  rw [Database.after_concat]
  cases v with
  | read policy actor p query now =>
    obtain ⟨time, same⟩ := answer_eq policy actor p query now (Database.after visits)
    rw [Visit.after, same]
    exact .inl rfl
  | batch policy request now ids =>
    rcases submit_contents policy request now ids (Database.after visits) with
      ⟨outcome, -, committed⟩ | ⟨-, same⟩
    · exact .inr ⟨outcome, committed.audit (sound_after visits).stamped⟩
    · exact .inl same

theorem counter_le_concat (visits : List Visit) (v : Visit) (p : Partition) :
    (Database.after visits).contents.counter p ≤
      (Database.after (visits ++ [v])).contents.counter p := by
  rcases v.audit visits with same | ⟨outcome, changed, records, audit⟩
  · rw [same]
    exact UInt64.le_refl _
  · exact audit.counter_le p

theorem stateAsOf_concat (visits : List Visit) (v : Visit) {p : Partition} {r : UInt64}
    (past : r < (Database.after (visits ++ [v])).contents.counter p ∨
      (Database.after (visits ++ [v])).contents.counter p =
        (Database.after visits).contents.counter p) :
    (Database.after (visits ++ [v])).contents.stateAsOf p (.revision r) =
      (Database.after visits).contents.stateAsOf p (.revision r) := by
  rcases v.audit visits with same | ⟨outcome, changed, records, audit⟩
  · rw [same]
  · exact audit.stateAsOf past

/-- What the log tells about a revision that the counter has reached stays as it is. -/
theorem stateAsOf_append (visits later : List Visit) {p : Partition} {r : UInt64}
    (reached : r ≤ (Database.after visits).contents.counter p) :
    (Database.after (visits ++ later)).contents.stateAsOf p (.revision r) =
      (Database.after visits).contents.stateAsOf p (.revision r) ∧
    r ≤ (Database.after (visits ++ later)).contents.counter p := by
  induction later using List.reverseRecOn with
  | nil =>
    rw [List.append_nil]
    exact ⟨rfl, reached⟩
  | append_singleton earlier v ih =>
    obtain ⟨same, below⟩ := ih
    rw [← List.append_assoc]
    have rises := counter_le_concat (visits ++ earlier) v p
    refine ⟨(stateAsOf_concat _ v ?_).trans same, UInt64.le_trans below rises⟩
    by_cases stays : (Database.after (visits ++ earlier ++ [v])).contents.counter p =
        (Database.after (visits ++ earlier)).contents.counter p
    · exact .inr stays
    · exact .inl (UInt64.lt_of_le_of_lt below (UInt64.lt_of_le_of_ne rises (Ne.symm stays)))

/-- What the log tells about a revision is what was stored when the counter was last within it. -/
theorem stateAsOf_eq_stored (visits : List Visit) (p : Partition) (r : UInt64) :
    ∃ i ≤ visits.length, (Database.after (visits.take i)).contents.counter p ≤ r ∧
      (∀ k, i < k → k ≤ visits.length →
        r < (Database.after (visits.take k)).contents.counter p) ∧
      (Database.after visits).contents.stateAsOf p (.revision r) =
        (Database.after (visits.take i)).contents.find? p := by
  have present : ∀ visits : List Visit, (Database.after visits).contents.counter p ≤ r →
      (Database.after visits).contents.stateAsOf p (.revision r) =
        (Database.after visits).contents.find? p :=
    fun visits => stateAsOf_of_le (sound_after visits) (logged_after visits)
  induction visits using List.reverseRecOn with
  | nil =>
    have zero : (Database.after []).contents.counter p ≤ r := UInt64.zero_le
    exact ⟨0, Nat.le_refl 0, zero, fun k above within => by simp at within; omega, present [] zero⟩
  | append_singleton earlier v ih =>
    have whole : (earlier ++ [v]).take (earlier ++ [v]).length = earlier ++ [v] := List.take_length
    by_cases within : (Database.after (earlier ++ [v])).contents.counter p ≤ r
    · refine ⟨(earlier ++ [v]).length, Nat.le_refl _, ?_⟩
      rw [whole]
      exact ⟨within, fun k above below => by omega, present _ within⟩
    · have beyond := UInt64.not_le.mp within
      obtain ⟨i, inside, reached, last, told⟩ := ih
      have front : ∀ k ≤ earlier.length, (earlier ++ [v]).take k = earlier.take k :=
        fun k below => List.take_append_of_le_length below
      refine ⟨i, by simp; omega, by rwa [front i inside], fun k above below => ?_, ?_⟩
      · by_cases end_ : k = (earlier ++ [v]).length
        · rw [end_, whole]
          exact beyond
        · have short : k ≤ earlier.length := by
            simp at below end_
            omega
          rw [front k short]
          exact last k above short
      · rw [front i inside, stateAsOf_concat earlier v (.inl beyond), told]

theorem readAsOf_result (policy : Policy) (actor : Actor) (p : Partition) (ids : List ConceptId)
    (bound : AsOf) (now : Instant) {db : Database} (available : db.unavailable = false) :
    (policy.readAsOf actor p ids bound now db).1.result =
      .ok (policy.gate.seen actor p (db.contents.stateAsOf p bound) ids) := by
  have opened : Transactional.openRead now db = _ := openView_of_available false now available
  simp only [Policy.readAsOf, Policy.reading, opened]
  exact Reader.asOf_eq ids bound

theorem readShallow_result (policy : Policy) (actor : Actor) (p : Partition) {ids : List ConceptId}
    (distinct : ids.Nodup) (now : Instant) {db : Database} (available : db.unavailable = false)
    (keyed : db.contents.Keyed) :
    (policy.readShallow actor p ids {} now db).1.result =
      .ok (policy.gate.seen actor p (db.contents.find? p) ids) := by
  have opened : Transactional.openRead now db = _ := openView_of_available false now available
  obtain ⟨journal, read⟩ := Reader.shallow_ok policy.gate actor p
    ⟨db.contents, db.nextTime now, false, db.rejectsLog⟩ keyed distinct []
  simp only [Policy.readShallow, Policy.reading, opened, read]

/-- A read at a revision answers what a live read answered in the last state whose counter was
within it: in the present that is the current state, and no later visit changes what was answered
about a revision that the counter had reached. -/
theorem readAsOf_revision (visits : List Visit) (policy : Policy) (actor : Actor) (p : Partition)
    (ids : List ConceptId) (r : UInt64) (distinct : ids.Nodup) :
    (∃ i ≤ visits.length, (Database.after (visits.take i)).contents.counter p ≤ r ∧
      (∀ k, i < k → k ≤ visits.length →
        r < (Database.after (visits.take k)).contents.counter p) ∧
      ∀ now now',
        (policy.readAsOf actor p ids (.revision r) now (Database.after visits)).1.result =
          (policy.readShallow actor p ids {} now' (Database.after (visits.take i))).1.result) ∧
    ((Database.after visits).contents.counter p ≤ r → ∀ now now',
      (policy.readAsOf actor p ids (.revision r) now (Database.after visits)).1.result =
        (policy.readShallow actor p ids {} now' (Database.after visits)).1.result) ∧
    (r ≤ (Database.after visits).contents.counter p → ∀ later now now',
      (policy.readAsOf actor p ids (.revision r) now' (Database.after (visits ++ later))).1.result =
        (policy.readAsOf actor p ids (.revision r) now (Database.after visits)).1.result) := by
  have past : ∀ visits now,
      (policy.readAsOf actor p ids (.revision r) now (Database.after visits)).1.result =
        .ok (policy.gate.seen actor p
          ((Database.after visits).contents.stateAsOf p (.revision r)) ids) :=
    fun visits now => readAsOf_result policy actor p ids (.revision r) now (unavailable_after visits)
  have live : ∀ visits now,
      (policy.readShallow actor p ids {} now (Database.after visits)).1.result =
        .ok (policy.gate.seen actor p ((Database.after visits).contents.find? p) ids) :=
    fun visits now => readShallow_result policy actor p distinct now (unavailable_after visits)
      (sound_after visits).keyed
  refine ⟨?_, fun reached now now' => ?_, fun reached later now now' => ?_⟩
  · obtain ⟨i, inside, within, last, told⟩ := stateAsOf_eq_stored visits p r
    refine ⟨i, inside, within, last, fun now now' => ?_⟩
    rw [past, live, told]
  · rw [past, live, stateAsOf_of_le (sound_after visits) (logged_after visits) reached]
  · rw [past, past, (stateAsOf_append visits later reached).1]

/-- A site directory that has since been given a model, read at the revision of its founding: the answer is
that of a live read back then, and it stays so, while a live read answers the second revision. -/
theorem readAsOf_revision_iterating :
    (Database.after [founding, iterating]).contents.counter .siteDirectory = 2 ∧
    (∀ now now', (({} : Policy).readAsOf foundingRequest.actor .siteDirectory [.ofNat 2] (.revision 1) now
        (Database.after [founding, iterating])).1.result =
      (({} : Policy).readShallow foundingRequest.actor .siteDirectory [.ofNat 2] {} now'
        (Database.after [founding])).1.result) ∧
    (∀ later now now', (({} : Policy).readAsOf foundingRequest.actor .siteDirectory [.ofNat 2]
        (.revision 1) now' (Database.after ([founding, iterating] ++ later))).1.result =
      (({} : Policy).readAsOf foundingRequest.actor .siteDirectory [.ofNat 2] (.revision 1) now
        (Database.after [founding, iterating])).1.result) ∧
    (({} : Policy).readShallow foundingRequest.actor .siteDirectory [.ofNat 2] {} default
      (Database.after [founding])).1.result.toOption.map (·.map (·.revisionNumber)) = some [1] ∧
    (({} : Policy).readShallow foundingRequest.actor .siteDirectory [.ofNat 2] {} default
      (Database.after [founding, iterating])).1.result.toOption.map (·.map (·.revisionNumber)) =
        some [2] := by
  have raised : (Database.after [founding, iterating]).contents.counter .siteDirectory = 2 := by
    decide +kernel
  have founded : (Database.after [founding]).contents.counter .siteDirectory = 1 := by decide +kernel
  obtain ⟨⟨i, inside, within, above, told⟩, -, stays⟩ := readAsOf_revision [founding, iterating] {}
    foundingRequest.actor .siteDirectory [.ofNat 2] 1 (List.nodup_singleton _)
  have one : i = 1 := by
    have last : i < 2 := by
      refine Nat.lt_of_le_of_ne inside ?_
      rintro rfl
      have early : (Database.after [founding, iterating]).contents.counter .siteDirectory ≤ 1 := within
      rw [raised] at early
      exact absurd early (by decide)
    have first : ¬ i < 1 := fun before => by
      have late : 1 < (Database.after [founding]).contents.counter .siteDirectory :=
        above 1 before (by decide)
      rw [founded] at late
      exact absurd late (by decide)
    omega
  rw [one] at told
  exact ⟨raised, told, fun later => stays (by rw [raised]; decide) later, by decide +kernel,
    by decide +kernel⟩

end ConceptLedger.Memory
