import ConceptLedger.Proofs.Instant.Order
import ConceptLedger.Proofs.Wire.Concept
import ConceptLedger.Store.Tables.View

/-!
Rows can be read back. What the tables keep of a concept gives the same concept, and what they keep
of a record the same record, as long as the codec loses nothing and times are whole milliseconds.
-/

namespace ConceptLedger

/-- An instant that its whole milliseconds give back: one in the supported years, in no leap second
and without a fraction of a millisecond. -/
def Instant.Whole (t : Instant) : Prop := ofMillis? t.toMillis = some t

namespace Instant

theorem Whole.parts {t : Instant} (whole : t.Whole) :
    t.inRange = true ∧ ∃ k < 1000, t.nanos = k * 1000000 := by
  unfold Whole ofMillis? at whole
  dsimp only at whole
  split at whole
  · rename_i range
    have same := Option.some.inj whole
    refine ⟨same ▸ range, (t.toMillis % 1000).toNat, by omega, ?_⟩
    exact (congrArg Instant.nanos same).symm
  · cases whole

/-- A whole millisecond comes before an instant if it comes before the whole milliseconds of it. -/
theorem Whole.atMost_iff_toMillis {t bound : Instant} (whole : t.Whole)
    (plain : bound.nanos < 1000000000) :
    t.atMost bound = true ↔ t.toMillis ≤ bound.toMillis := by
  obtain ⟨-, k, small, nanos⟩ := whole.parts
  rw [atMost_iff, toMillis, toMillis, nanos]
  omega

end Instant

namespace Tables

/-- A codec that loses nothing of what the tables hold. -/
structure TextCodec.Exact (codec : TextCodec) : Prop where
  properties : ∀ p, codec.read? (codec.write (Wire.ofProperties p)) = some (Wire.ofProperties p)
  accessOverride : ∀ o,
    codec.read? (codec.write (Wire.ofAccessOverride o)) = some (Wire.ofAccessOverride o)
  concept : ∀ c, codec.read? (codec.write (Wire.ofConcept c)) = some (Wire.ofConcept c)

/-- A record that the log table can hold: under a revision that a signed number holds, with a
legible state and a time in whole milliseconds. -/
structure Storable (r : RevisionRecord) : Prop where
  revision : r.revision.toNat < Word.half
  state : ∀ c ∈ r.state, c.Legible
  time : r.committedAt.Whole

variable {codec : TextCodec}

theorem mapM_some_ok {α β : Type} {f : α → Except Failure β} {a : α} {b : β} (run : f a = .ok b) :
    (some a).mapM f = .ok (some b) := by
  show (f a).bind (fun b => .ok (some b)) = _
  rw [run]
  rfl

theorem parseText_of_read {α : Type} {table text : String} {read : Json → Option α} {j : Json}
    {a : α} (kept : codec.read? text = some j) (means : read j = some a) :
    parseText codec table read text = .ok a := by
  simp [parseText, kept, means]

theorem parseId_text (u : Uuid) : parseId u.text = .ok u := by
  simp [parseId, u.read?_text]

theorem parseType_name (t : ConceptType) : parseType t.name = .ok t := by
  simp [parseType, t.ofName?_name]

theorem parsePartition_name (p : Partition) : parsePartition p.name = .ok p := by
  simp [parsePartition, p.read?_name]

/-- In the supported years milliseconds are far from both ends of the signed range. -/
theorem toMillis_bounds {t : Instant} (range : t.inRange = true) :
    -9000000000000000 < t.toMillis ∧ t.toMillis < 9000000000000000 := by
  have first : Date.first.toDays = -96465292 := by decide
  have last : Date.last.toDays = 95026236 := by decide
  simp only [Instant.inRange, first, last, Bool.and_eq_true, decide_eq_true_eq] at range
  have small := t.nanos_lt
  rw [Instant.toMillis]
  omega

theorem toInt_millisOf_of_inRange {t : Instant} (range : t.inRange = true) :
    (millisOf t).toInt = t.toMillis := by
  have bounds := toMillis_bounds range
  exact Int64.toInt_ofInt_of_le (by omega) (by omega)

theorem toInt_millisOf {t : Instant} (whole : t.Whole) : (millisOf t).toInt = t.toMillis := by
  exact toInt_millisOf_of_inRange whole.parts.1

theorem parseMillis_millisOf {t : Instant} (whole : t.Whole) : parseMillis (millisOf t) = .ok t := by
  have read : Instant.ofMillis? t.toMillis = some t := whole
  simp [parseMillis, toInt_millisOf whole, read]

theorem toMillis_of_parseMillis {ms : Int64} {time : Instant} (read : parseMillis ms = .ok time) :
    Instant.ofMillis? ms.toInt = some time ∧ time.toMillis = ms.toInt := by
  unfold parseMillis at read
  split at read
  · rename_i t found
    cases read
    refine ⟨found, ?_⟩
    unfold Instant.ofMillis? at found
    dsimp only at found
    split at found
    · cases found
      simp only [Instant.toMillis]
      omega
    · cases found
  · cases read

/-- A time that is read from milliseconds is a whole number of them. -/
theorem whole_of_parseMillis {ms : Int64} {time : Instant} (read : parseMillis ms = .ok time) :
    time.Whole := by
  obtain ⟨found, back⟩ := toMillis_of_parseMillis read
  rw [Instant.Whole, back, found]

theorem decodeConcept_encodeConcept (exact_ : codec.Exact) {c : Concept} (legible : c.Legible) :
    decodeConcept codec c.id.text (encodeConcept codec c) = .ok c := by
  have properties : parseText codec "concepts" Wire.properties?
      (codec.write (Wire.ofProperties c.properties)) = .ok c.properties :=
    parseText_of_read (exact_.properties _) (Wire.properties?_ofProperties _ legible)
  have override : parseText codec "concepts" Wire.accessOverride?
      (codec.write (Wire.ofAccessOverride c.accessOverride)) = .ok c.accessOverride :=
    parseText_of_read (exact_.accessOverride _) (Wire.accessOverride?_ofAccessOverride _)
  have container : (c.container.map (·.text)).mapM parseId = .ok c.container := by
    cases c.container with
    | none => rfl
    | some id => exact mapM_some_ok (parseId_text id)
  simp only [decodeConcept, encodeConcept, IntegerCell.get, properties, override, parseId_text,
    parseType_name, container]
  rfl

/-- A row that can be read holds the concept of its own identifier. -/
theorem decodeConcept_id {id : ConceptId} {row : ConceptRow} {c : Concept}
    (read : decodeConcept codec id.text row = .ok c) : c.id = id := by
  obtain ⟨_, -, read⟩ := Except.bind_ok read
  obtain ⟨_, -, read⟩ := Except.bind_ok read
  obtain ⟨_, -, read⟩ := Except.bind_ok read
  obtain ⟨own, parsed, read⟩ := Except.bind_ok read
  obtain ⟨_, -, read⟩ := Except.bind_ok read
  obtain ⟨_, -, read⟩ := Except.bind_ok read
  cases read
  exact (Except.ok.inj ((parseId_text id).symm.trans parsed)).symm

theorem decodeRecord_encodeRecord (exact_ : codec.Exact) {r : RevisionRecord} (storable : Storable r) :
    decodeRecord codec (logKeyOf r) (encodeRecord codec r) = .ok r := by
  have state : (r.state.map fun c => codec.write (Wire.ofConcept c)).mapM
      (parseText codec "revision_log" Wire.concept?) = .ok r.state := by
    cases present : r.state with
    | none => rfl
    | some c =>
      exact mapM_some_ok (parseText_of_read (exact_.concept c)
        (Wire.concept?_ofConcept (storable.state c present)))
  simp only [decodeRecord, encodeRecord, logKeyOf, state, parsePartition_name, parseId_text,
    parseType_name, parseMillis_millisOf storable.time, UInt64.toUInt64_toInt64]
  rfl

/-- A log entry that can be read has a time in whole milliseconds. -/
theorem decodeRecord_whole {key : LogKey} {row : LogRow} {r : RevisionRecord}
    (read : decodeRecord codec key row = .ok r) : r.committedAt.Whole := by
  obtain ⟨_, -, read⟩ := Except.bind_ok read
  obtain ⟨_, -, read⟩ := Except.bind_ok read
  obtain ⟨_, -, read⟩ := Except.bind_ok read
  obtain ⟨_, -, read⟩ := Except.bind_ok read
  obtain ⟨_, time, read⟩ := Except.bind_ok read
  cases read
  exact whole_of_parseMillis time

end Tables

end ConceptLedger
