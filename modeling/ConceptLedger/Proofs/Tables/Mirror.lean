import ConceptLedger.Proofs.Store.LostUpdate
import ConceptLedger.Proofs.Tables.Rows

/-!
Tables that mirror the contents of a store in memory. The concepts, the log and the counters are the
same in another form: row by row in the same order, with the log sorted by its key. Reading from the
tables gives what reading from memory gives.
-/

namespace ConceptLedger

/-- Whether a bound is one that the tables can compare with: any revision, or an instant in the
supported years that is in no leap second. -/
def AsOf.Plain : AsOf → Prop
  | .revision _ => True
  | .instant t => t.inRange = true ∧ t.nanos < 1000000000

namespace Tables

open Step

/-- The key of a concept at an address. -/
def keyAt (a : Address) : ConceptKey := keyOf a.partition a.id

/-- A counter as its cell holds it. -/
def cellOf (n : UInt64) : IntegerCell := .whole n.toInt64

/-- The entry of a record in the log table. -/
def entryOf (codec : TextCodec) (r : RevisionRecord) : LogKey × LogRow :=
  (logKeyOf r, encodeRecord codec r)

/-- Tables that hold the same concepts, log and counters as a store in memory. -/
structure Mirrors (codec : TextCodec) (m : Memory.Contents) (s : Contents) : Prop where
  concepts : SortedMap.Written keyAt (encodeConcept codec) m.concepts s.concepts
  log : s.log = SortedMap.ofList (m.log.map (entryOf codec))
  counters : SortedMap.Written Partition.name cellOf m.counters s.counters

/-- Contents of a store in memory that tables can hold. -/
structure Fits (m : Memory.Contents) : Prop where
  keyed : m.Keyed
  legible : ∀ p id c, m.find? p id = some c → c.Legible
  storable : ∀ r ∈ m.log, Storable r
  /-- No concept has two records under one revision. -/
  once : m.log.Pairwise fun a b =>
    ¬ (a.partition = b.partition ∧ a.conceptId = b.conceptId ∧ a.revision = b.revision)

theorem keyAt_embeds : Embeds keyAt := by
  intro a b
  show (compare a.partition.name b.partition.name).then (compare a.id.text b.id.text) =
    (compare a.partition b.partition).then (compare a.id b.id)
  rw [Partition.name_embeds, Uuid.text_embeds]

theorem toInt64_inj {a b : UInt64} : a.toInt64 = b.toInt64 ↔ a = b := by
  constructor
  · intro same
    rw [← UInt64.toUInt64_toInt64 a, same, UInt64.toUInt64_toInt64]
  · rintro rfl
    rfl

/-- A revision below the signed range is the same number with a sign. -/
theorem toInt_toInt64 {n : UInt64} (bound : n.toNat < Word.half) : n.toInt64.toInt = n.toNat := by
  have signed : n.toInt64.toInt = n.toBitVec.toInt := rfl
  have unsigned : n.toNat = n.toBitVec.toNat := rfl
  simp only [unsigned, Word.half] at bound
  rw [signed, BitVec.toInt_eq_toNat_cond, unsigned]
  split <;> omega

/-- Log keys tell records apart as partition, concept and revision do. -/
theorem logKeyOf_eq_iff {a b : RevisionRecord} : logKeyOf a = logKeyOf b ↔
    a.partition = b.partition ∧ a.conceptId = b.conceptId ∧ a.revision = b.revision := by
  rw [logKeyOf, logKeyOf, LogKey.mk.injEq, Partition.name_embeds.eq_iff, Uuid.text_embeds.eq_iff,
    toInt64_inj]

/-- The keys of a concept's records are in the order of their revisions. -/
theorem compare_logKeyOf {a b : RevisionRecord} (same : a.address = b.address) (left : Storable a)
    (right : Storable b) (before : a.revision < b.revision) :
    compare (logKeyOf a) (logKeyOf b) = .lt := by
  obtain ⟨parts, ids⟩ := RevisionRecord.address_eq_iff.mp same
  have less : a.revision.toInt64 < b.revision.toInt64 := by
    rw [Int64.lt_iff_toInt_lt, toInt_toInt64 left.revision, toInt_toInt64 right.revision]
    exact Int.ofNat_lt.mpr (UInt64.lt_iff_toNat_lt.mp before)
  show (compare a.partition.name b.partition.name).then
    ((compare a.conceptId.text b.conceptId.text).then
      (compare a.revision.toInt64 b.revision.toInt64)) = .lt
  rw [parts, ids, Std.compare_eq_lt.mpr less]
  simp

/-- Bounds mean the same for a record and for its entry. -/
theorem within_entryOf {codec : TextCodec} {bound : AsOf} (plain : bound.Plain)
    {r : RevisionRecord} (storable : Storable r) :
    Contents.within bound (entryOf codec r) = bound.includes r := by
  cases bound with
  | revision n =>
    show (decide (n.toNat ≥ Word.half) || decide (r.revision.toInt64 ≤ n.toInt64)) =
      decide (r.revision ≤ n)
    have small := storable.revision
    by_cases beyond : n.toNat ≥ Word.half
    · -- a bound that the tables cannot compare with includes all that they can hold
      have below : r.revision ≤ n := UInt64.le_iff_toNat_le.mpr (by omega)
      simp [beyond, below]
    · have same : r.revision.toInt64 ≤ n.toInt64 ↔ r.revision ≤ n := by
        rw [Int64.le_iff_toInt_le, toInt_toInt64 small, toInt_toInt64 (by omega),
          UInt64.le_iff_toNat_le]
        exact Int.ofNat_le
      simp [beyond, same]
  | instant t =>
    show decide (millisOf r.committedAt ≤ millisOf t) = r.committedAt.atMost t
    have same : millisOf r.committedAt ≤ millisOf t ↔ r.committedAt.atMost t = true := by
      rw [Int64.le_iff_toInt_le, toInt_millisOf storable.time, toInt_millisOf_of_inRange plain.1,
        storable.time.atMost_iff_toMillis plain.2]
    rw [Bool.eq_iff_iff, decide_eq_true_eq]
    exact same

/-- The newest of several records is the last one when they are sorted by their revisions. -/
theorem newest?_of_sorted {sorted records : List RevisionRecord} (perm : sorted.Perm records)
    (increasing : sorted.Pairwise fun a b => a.revision < b.revision) :
    sorted.getLast? = Memory.Contents.newest? records := by
  cases sorted using List.reverseRecOn with
  | nil =>
    rw [List.nil_perm.mp perm]
    rfl
  | append_singleton earlier last =>
    have inside : last ∈ records := perm.mem_iff.mp (by simp)
    rw [List.getLast?_concat]
    cases found : Memory.Contents.newest? records with
    | none =>
      rw [Memory.newest?_eq_none found] at inside
      cases inside
    | some r =>
      have above := Memory.newest?_le found inside
      rcases List.mem_append.mp (perm.mem_iff.mpr (Reader.newest?_mem found)) with before | here
      · have below := (List.pairwise_append.mp increasing).2.2 r before last (by simp)
        exact absurd above (UInt64.not_le.mpr below)
      · rw [List.mem_singleton.mp here]

section Reads

variable {codec : TextCodec} {m : Memory.Contents} {s : Contents} (mirrors : Mirrors codec m s)
  (fits : Fits m)

include mirrors

theorem concepts_size : s.concepts.size = m.concepts.size := mirrors.concepts.size

include fits

theorem log_perm : s.log.entries.Perm (m.log.map (entryOf codec)) := by
  rw [mirrors.log]
  refine SortedMap.ofList_perm ?_
  rw [List.map_map]
  exact List.pairwise_map.mpr (fits.once.imp fun apart same => apart (logKeyOf_eq_iff.mp same))

theorem log_size : s.log.size = m.log.length := by
  rw [SortedMap.size, (log_perm mirrors fits).length_eq, List.length_map]

theorem log_contains (r : RevisionRecord) : s.log.contains (logKeyOf r) = m.logged r := by
  rw [Bool.eq_iff_iff]
  constructor
  · intro present
    obtain ⟨row, found⟩ := Option.isSome_iff_exists.mp present
    have entry := (log_perm mirrors fits).mem_iff.mp (SortedMap.find?_eq_some_iff.mp found)
    obtain ⟨q, member, same⟩ := List.mem_map.mp entry
    have key : logKeyOf q = logKeyOf r := congrArg Prod.fst same
    exact List.any_eq_true.mpr ⟨q, member, decide_eq_true (logKeyOf_eq_iff.mp key)⟩
  · intro logged
    obtain ⟨q, member, same⟩ := List.any_eq_true.mp logged
    have key : logKeyOf q = logKeyOf r := logKeyOf_eq_iff.mpr (of_decide_eq_true same)
    have entry := (log_perm mirrors fits).mem_iff.mpr (List.mem_map_of_mem member)
    have found : s.log.find? (logKeyOf q) = some (encodeRecord codec q) :=
      SortedMap.find?_eq_some_iff.mpr entry
    rw [key] at found
    rw [SortedMap.contains, found]
    rfl

omit mirrors in
theorem records_apart (p : Partition) (id : ConceptId) :
    (m.recordsOf p id).Pairwise fun a b => a.revision ≠ b.revision := by
  refine (fits.once.sublist List.filter_sublist).imp_of_mem fun {a b} inA inB apart same => ?_
  have address := (Memory.mem_recordsOf.mp inA).2.trans (Memory.mem_recordsOf.mp inB).2.symm
  obtain ⟨parts, ids⟩ := RevisionRecord.address_eq_iff.mp address
  exact apart ⟨parts, ids, same⟩

/-- The entries of a concept are its records by ascending revision. -/
theorem entriesOf_eq (p : Partition) (id : ConceptId) :
    s.entriesOf p id = (sortByKey (·.revision) (m.recordsOf p id)).map (entryOf codec) := by
  have members : ∀ r ∈ sortByKey (·.revision) (m.recordsOf p id), r ∈ m.log ∧ r.address = ⟨p, id⟩ :=
    fun r member => Memory.mem_recordsOf.mp ((sortByKey_perm _ _).mem_iff.mp member)
  have sorted := sortByKey_increasing (records_apart fits p id)
  -- both sides are sorted by the log key, so that they need only have the same members
  refine SortedMap.entries_ext (s.log.increasing.filter _) ?_ fun e => ?_
  · refine List.pairwise_map.mpr (sorted.imp_of_mem fun {a b} inA inB less => ?_)
    obtain ⟨loggedA, atA⟩ := members a inA
    obtain ⟨loggedB, atB⟩ := members b inB
    exact compare_logKeyOf (atA.trans atB.symm) (fits.storable a loggedA)
      (fits.storable b loggedB) (Std.compare_eq_lt.mp less)
  · constructor
    · intro member
      obtain ⟨inLog, matching⟩ := List.mem_filter.mp member
      obtain ⟨r, logged, rfl⟩ := List.mem_map.mp ((log_perm mirrors fits).mem_iff.mp inLog)
      obtain ⟨parts, ids⟩ := of_decide_eq_true matching
      have address : r.address = ⟨p, id⟩ := by
        rw [RevisionRecord.address, Partition.name_embeds.eq_iff.mp parts,
          Uuid.text_embeds.eq_iff.mp ids]
      exact List.mem_map_of_mem ((sortByKey_perm _ _).mem_iff.mpr
        (Memory.mem_recordsOf.mpr ⟨logged, address⟩))
    · intro member
      obtain ⟨r, inside, rfl⟩ := List.mem_map.mp member
      obtain ⟨logged, address⟩ := members r inside
      have parts : r.partition = p := congrArg Address.partition address
      have ids : r.conceptId = id := congrArg Address.id address
      refine List.mem_filter.mpr ⟨(log_perm mirrors fits).mem_iff.mpr
        (List.mem_map_of_mem logged), decide_eq_true ?_⟩
      exact ⟨congrArg Partition.name parts, congrArg Uuid.text ids⟩

/-- The newest entry is that of the newest record. -/
theorem latest?_eq (p : Partition) (id : ConceptId) {keep : LogKey × LogRow → Bool}
    {within : RevisionRecord → Bool} (same : ∀ r ∈ m.log, keep (entryOf codec r) = within r) :
    s.latest? p id keep = (m.latest? p id within).map (entryOf codec) := by
  have kept : ((sortByKey (·.revision) (m.recordsOf p id)).map (entryOf codec)).filter keep =
      ((sortByKey (·.revision) (m.recordsOf p id)).filter within).map (entryOf codec) := by
    rw [List.filter_map]
    congr 1
    refine List.filter_congr fun r member => same r ?_
    exact (Memory.mem_recordsOf.mp ((sortByKey_perm _ _).mem_iff.mp member)).1
  have sorted := (sortByKey_increasing (records_apart fits p id)).sublist
    (List.filter_sublist (p := within))
  rw [Contents.latest?, entriesOf_eq mirrors fits, kept, List.getLast?_map,
    newest?_of_sorted ((sortByKey_perm _ _).filter within)
      (sorted.imp fun less => Std.compare_eq_lt.mp less)]
  rfl

end Reads

end Tables

end ConceptLedger
