import ConceptLedger.Proofs.Read.Alike
import ConceptLedger.Proofs.Tables.Mirror

/-!
Views that go together: one of a store in memory and one of tables that mirror it, at the same time.
Every call that reads answers the same on both.
-/

namespace ConceptLedger.Tables

open Step

/-- A view in memory and a view of tables that mirror it. -/
structure Twins (codec : TextCodec) (v : Memory.View) (w : View) : Prop where
  mirrors : Mirrors w.codec v.contents w.contents
  fits : Fits v.contents
  codec_eq : w.codec = codec
  exact : w.codec.Exact
  time : v.time = w.time
  legible : v.time.Legible
  whole : v.time.Whole
  writable : v.writable = w.writable
  accepts : v.rejectsLog = false

namespace Twins

variable {codec : TextCodec} {v : Memory.View} {w : View} (twins : Twins codec v w)

include twins

theorem find_eq (p : Partition) (id : ConceptId) : w.find p id = .ok (v.contents.find? p id) := by
  have found : w.contents.concepts.find? (keyOf p id) =
      (v.contents.find? p id).map (encodeConcept w.codec) :=
    twins.mirrors.concepts.find? keyAt_embeds ⟨p, id⟩
  unfold View.find
  rw [found]
  cases stored : v.contents.find? p id with
  | none => rfl
  | some c =>
    have own : c.id = id := twins.fits.keyed ⟨p, id⟩ c stored
    have read := decodeConcept_encodeConcept twins.exact (twins.fits.legible p id c stored)
    rw [own] at read
    exact mapM_some_ok read

theorem list_eq (p : Partition) (t : Option ConceptType) :
    w.list p t = .ok ((v.contents.conceptsIn p).filter (Memory.View.ofType t)) := by
  have type_eq (a b : ConceptType) : a.name = b.name ↔ a = b := by
    constructor
    · intro same
      have read := a.ofName?_name
      rw [same, b.ofName?_name] at read
      exact (Option.some.inj read).symm
    · rintro rfl
      rfl
  have rows : w.contents.concepts.toList = v.contents.concepts.toList.map fun e =>
      (keyAt e.1, encodeConcept w.codec e.2) := twins.mirrors.concepts
  have kept : ∀ e : Address × Concept,
      ((keyAt e.1).partition = p.name && t.all fun t => (encodeConcept w.codec e.2).conceptType =
        t.name) = (decide (e.1.partition = p) && Memory.View.ofType t e.2) := by
    intro e
    show (decide (e.1.partition.name = p.name) && t.all fun t => e.2.conceptType.name = t.name) = _
    simp only [Partition.name_embeds.eq_iff, type_eq]
    rfl
  -- the rows stand in the order of the concepts, so filters that agree on each keep the same
  unfold View.list
  rw [rows, List.filter_map, List.mapM_map]
  have values : ∀ e ∈ v.contents.concepts.toList.filter ((fun e : ConceptKey × ConceptRow =>
      e.1.partition = p.name && t.all fun t => e.2.conceptType = t.name) ∘
        fun e => (keyAt e.1, encodeConcept w.codec e.2)),
      ((fun e => decodeConcept w.codec e.1.id e.2) ∘
        fun e => (keyAt e.1, encodeConcept w.codec e.2)) e = .ok e.2 := by
    intro e member
    have stored : v.contents.find? e.1.partition e.1.id = some e.2 :=
      SortedMap.find?_eq_some_iff.mpr (List.mem_filter.mp member).1
    have own : e.2.id = e.1.id := twins.fits.keyed e.1 e.2 stored
    have read := decodeConcept_encodeConcept twins.exact (twins.fits.legible _ _ _ stored)
    rw [own] at read
    exact read
  rw [mapM_eq_ok values, Memory.Contents.conceptsIn, List.filter_map, List.filter_filter]
  refine congrArg (fun l => Except.ok (List.map Prod.snd l)) (List.filter_congr fun e _ => ?_)
  rw [Function.comp_apply, Function.comp_apply, kept, Bool.and_comm]

theorem read_eq (p : Partition) (t : Option ConceptType) (ids : Option (List ConceptId)) :
    ConceptStore.read w p t ids = ConceptStore.read v p t ids := by
  cases ids with
  | none => exact twins.list_eq p t
  | some ids =>
    show (ids.mapM (w.find p)).map _ = Except.ok _
    rw [mapM_eq_ok fun id _ => twins.find_eq p id]
    simp only [Except.map, List.filterMap_map]
    rfl

theorem find?_eq : ConceptStore.find? w = ConceptStore.find? v := by
  funext p id
  unfold ConceptStore.find?
  rw [twins.read_eq]

theorem currentRevision_eq (p : Partition) :
    ConceptStore.currentRevision w p = ConceptStore.currentRevision v p := by
  show w.currentRevision p = .ok (v.contents.counter p)
  rw [View.currentRevision, twins.mirrors.counters.find? Partition.name_embeds]
  unfold Memory.Contents.counter
  cases v.contents.counters.find? p with
  | none => rfl
  | some n => exact congrArg Except.ok (UInt64.toUInt64_toInt64 n)

theorem latest_eq (p : Partition) (ids : List ConceptId) {keep : LogKey × LogRow → Bool}
    {within : RevisionRecord → Bool}
    (same : ∀ r ∈ v.contents.log, keep (entryOf w.codec r) = within r) :
    w.latest p ids keep = .ok (ids.filterMap fun id => v.contents.latest? p id within) := by
  have each : ∀ id ∈ ids, ((w.contents.latest? p id keep).mapM fun e =>
      decodeRecord w.codec e.1 e.2) = .ok (v.contents.latest? p id within) := by
    intro id _
    rw [latest?_eq twins.mirrors twins.fits p id same]
    cases found : v.contents.latest? p id within with
    | none => rfl
    | some r =>
      have inLog : r ∈ v.contents.log :=
        (Memory.mem_recordsOf.mp (List.mem_filter.mp (Reader.newest?_mem found)).1).1
      exact mapM_some_ok (decodeRecord_encodeRecord twins.exact (twins.fits.storable r inLog))
  unfold View.latest
  rw [mapM_eq_ok each]
  simp only [Except.map, List.filterMap_map]
  rfl

theorem readCached_eq (p : Partition) (ids : List ConceptId) :
    ConceptStore.readCached w p ids = ConceptStore.readCached v p ids := by
  show (w.latest p ids fun _ => true).map (·.filterMap (·.state)) = .ok _
  have newest : w.latest p ids (fun _ => true) =
      .ok (ids.filterMap fun id => v.contents.latest? p id fun _ => true) :=
    twins.latest_eq p ids fun _ _ => rfl
  rw [newest]
  simp only [Except.map, List.filterMap_filterMap]

theorem revisionsAsOf_eq (p : Partition) (ids : List ConceptId) {bound : AsOf}
    (plain : bound.Plain) :
    ConceptStore.revisionsAsOf w p ids bound = ConceptStore.revisionsAsOf v p ids bound :=
  twins.latest_eq p ids fun r member => within_entryOf plain (twins.fits.storable r member)

theorem history_eq (p : Partition) (id : ConceptId) :
    ConceptStore.history w p id = ConceptStore.history v p id := by
  show (w.contents.entriesOf p id).mapM (fun e => decodeRecord w.codec e.1 e.2) = .ok _
  have read : ∀ r ∈ sortByKey (·.revision) (v.contents.recordsOf p id),
      ((fun e => decodeRecord w.codec e.1 e.2) ∘ entryOf w.codec) r = .ok r := by
    intro r member
    have inLog : r ∈ v.contents.log :=
      (Memory.mem_recordsOf.mp ((sortByKey_perm _ _).mem_iff.mp member)).1
    exact decodeRecord_encodeRecord twins.exact (twins.fits.storable r inLog)
  rw [entriesOf_eq twins.mirrors twins.fits, List.mapM_map, mapM_eq_ok read, List.map_id']

theorem statesAsOf_eq (p : Partition) (ids : List ConceptId) {bound : AsOf}
    (plain : bound.Plain) :
    ConceptStore.statesAsOf w p ids bound = ConceptStore.statesAsOf v p ids bound := by
  unfold ConceptStore.statesAsOf
  rw [twins.revisionsAsOf_eq p ids plain]

theorem extent_eq : ConceptStore.extent w = ConceptStore.extent v := by
  show w.contents.concepts.size + w.contents.log.size = _
  rw [concepts_size twins.mirrors, log_size twins.mirrors twins.fits]
  rfl

/-- Readers see the same on both views. -/
theorem showsSame : ShowsSame AsOf.Plain v w where
  read := twins.read_eq
  readCached := twins.readCached_eq
  statesAsOf p ids _ plain := twins.statesAsOf_eq p ids plain
  history := twins.history_eq
  extent := twins.extent_eq

theorem serves (p : Partition) : Serves Concept.Legible (ConceptStore.find? v p) :=
  fun id => ⟨v.contents.find? p id, v.find?_eq p id, fun c stored => twins.fits.legible p id c stored⟩

end Twins

/-- All times in a history that tables answer are in whole milliseconds. -/
theorem history_whole {w : View} {p : Partition} {id : ConceptId} {records : List RevisionRecord}
    (answered : ConceptStore.history w p id = .ok records) :
    ∀ r ∈ records, r.committedAt.Whole := by
  have answered : (w.contents.entriesOf p id).mapM (fun e => decodeRecord w.codec e.1 e.2) =
      .ok records := answered
  clear * - answered
  generalize w.contents.entriesOf p id = entries at answered
  induction entries generalizing records with
  | nil =>
    cases answered
    exact fun _ member => nomatch member
  | cons e rest ih =>
    rw [List.mapM_cons] at answered
    obtain ⟨first, read, answered⟩ := Except.bind_ok answered
    obtain ⟨later, others, answered⟩ := Except.bind_ok answered
    cases answered
    intro r member
    rcases List.mem_cons.mp member with rfl | member
    · exact decodeRecord_whole read
    · exact ih others r member

end ConceptLedger.Tables
