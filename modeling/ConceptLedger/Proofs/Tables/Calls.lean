import ConceptLedger.Proofs.Store.Rejection
import ConceptLedger.Proofs.Tables.Views
import ConceptLedger.Store.Call

/-!
Calls on views that go together. Every call answers the same on both or fails on both, and leaves
the views together; so does every sequence of calls.
-/

namespace ConceptLedger

namespace Tables

open Step

section Contents

variable {codec : TextCodec} {m : Memory.Contents} {s : Contents} {p : Partition}

theorem Mirrors.put (mirrors : Mirrors codec m s) (p : Partition) (c : Concept) :
    Mirrors codec (m.put p c) (s.put codec p c) where
  concepts := mirrors.concepts.insert keyAt_embeds ⟨p, c.id⟩ c
  log := mirrors.log
  counters := mirrors.counters

theorem Mirrors.drop (mirrors : Mirrors codec m s) (p : Partition) (id : ConceptId) :
    Mirrors codec (m.drop p id) { s with concepts := s.concepts.erase (keyOf p id) } where
  concepts := mirrors.concepts.erase keyAt_embeds ⟨p, id⟩
  log := mirrors.log
  counters := mirrors.counters

theorem Mirrors.count (mirrors : Mirrors codec m s) (p : Partition) (n : UInt64) :
    Mirrors codec (m.count p n) { s with counters := s.counters.insert p.name (cellOf n) } where
  concepts := mirrors.concepts
  log := mirrors.log
  counters := mirrors.counters.insert Partition.name_embeds p n

theorem Mirrors.record (mirrors : Mirrors codec m s) (r : RevisionRecord) :
    Mirrors codec (m.record [r])
      { s with log := s.log.insert (logKeyOf r) (encodeRecord codec r) } where
  concepts := mirrors.concepts
  log := by
    show s.log.insert _ _ = SortedMap.ofList ((m.log ++ [r]).map (entryOf codec))
    rw [mirrors.log, List.map_append]
    simp [SortedMap.ofList, entryOf]
  counters := mirrors.counters

theorem Fits.put (fits : Fits m) {c : Concept} (legible : c.Legible) : Fits (m.put p c) where
  keyed a c' found := by
    have found : (m.put p c).find? a.partition a.id = some c' := found
    rw [Memory.Contents.find?_put] at found
    split at found
    · rename_i here
      cases found
      exact here.2.symm
    · exact fits.keyed a c' found
  legible q id c' found := by
    rw [Memory.Contents.find?_put] at found
    split at found
    · cases found
      exact legible
    · exact fits.legible q id c' found
  storable := fits.storable
  once := fits.once

theorem Fits.drop (fits : Fits m) {id : ConceptId} : Fits (m.drop p id) where
  keyed a c found := by
    have found : (m.drop p id).find? a.partition a.id = some c := found
    rw [Memory.Contents.find?_drop] at found
    split at found
    · cases found
    · exact fits.keyed a c found
  legible q id' c found := by
    rw [Memory.Contents.find?_drop] at found
    split at found
    · cases found
    · exact fits.legible q id' c found
  storable := fits.storable
  once := fits.once

theorem Fits.count (fits : Fits m) {n : UInt64} : Fits (m.count p n) where
  keyed := fits.keyed
  legible := fits.legible
  storable := fits.storable
  once := fits.once

theorem Fits.record (fits : Fits m) {r : RevisionRecord} (storable : Storable r)
    (fresh : m.logged r = false) : Fits (m.record [r]) where
  keyed := fits.keyed
  legible := fits.legible
  storable q member := by
    rcases List.mem_append.mp member with before | here
    · exact fits.storable q before
    · cases List.mem_singleton.mp here
      exact storable
  once := by
    refine List.pairwise_append.mpr ⟨fits.once, by simp, fun q before q' here same => ?_⟩
    cases List.mem_singleton.mp here
    have logged : m.logged r = true := List.any_eq_true.mpr ⟨q, before, decide_eq_true same⟩
    rw [fresh] at logged
    cases logged

end Contents

section Writes

variable {codec : TextCodec} {p : Partition} {c : Concept}

theorem guardWrite_alike (op : String) :
    Alike (Twins codec) Eq (fun _ => True) (Memory.View.guardWrite op) (View.guardWrite op) := by
  refine .look fun v w twins => ⟨?_, fun _ _ => trivial, fun _ _ => rfl⟩
  rw [twins.writable]

theorem contains_alike (p : Partition) (id : ConceptId) :
    Alike (Twins codec) Eq (fun _ => True) (Step.gets fun v => (v.contents.find? p id).isSome)
      (Step.gets fun w : View => w.contents.concepts.contains (keyOf p id)) := by
  refine .gets fun v w twins => ⟨?_, trivial⟩
  exact (twins.mirrors.concepts.contains keyAt_embeds ⟨p, id⟩).symm

theorem put_alike (legible : c.Legible) :
    Alike (Twins codec) Eq (fun _ => True) (Memory.View.change (·.put p c))
      (Step.modify fun w : View => { w with contents := w.contents.put w.codec p c }) :=
  .modify fun _ _ twins =>
    { twins with mirrors := twins.mirrors.put p c, fits := twins.fits.put legible }

theorem write_alike (legible : c.Legible) :
    Alike (Twins codec) Eq (fun _ => True) (ConceptStore.write p c) (ConceptStore.write p c) := by
  refine (guardWrite_alike "write").bind fun _ _ => (contains_alike p c.id).bind fun found _ => ?_
  cases found with
  | true => exact .pure trivial
  | false => exact (put_alike legible).bind fun _ _ => .pure trivial

theorem update_alike (legible : c.Legible) :
    Alike (Twins codec) Eq (fun _ => True) (ConceptStore.update p c) (ConceptStore.update p c) := by
  refine (guardWrite_alike "update").bind fun _ _ => (contains_alike p c.id).bind fun found _ => ?_
  cases found with
  | true => exact (put_alike legible).bind fun _ _ => .pure trivial
  | false => exact .pure trivial

theorem delete_alike (id : ConceptId) :
    Alike (Twins codec) Eq (fun _ => True) (ConceptStore.delete p id) (ConceptStore.delete p id) := by
  refine (guardWrite_alike "delete").bind fun _ _ => (contains_alike p id).bind fun found _ => ?_
  refine Alike.bind (Q := fun _ => True) (.modify fun _ _ twins => ?_) fun _ _ => .pure trivial
  exact { twins with mirrors := twins.mirrors.drop p id, fits := twins.fits.drop }

end Writes

section Revisions

variable {codec : TextCodec} {v : Memory.View} {w : View} {p : Partition}

/-- The greatest signed number is the last revision of the signed range. -/
theorem toInt64_eq_maxValue {n : UInt64} (bound : n.toNat < Word.half) :
    n.toInt64 = Int64.maxValue ↔ n.toNat + 1 = Word.half := by
  have greatest : Int64.maxValue.toInt = 9223372036854775807 := by decide
  rw [← Int64.toInt_inj, toInt_toInt64 bound, greatest]
  simp only [Word.half]
  omega

/-- The cell of a counter grows as the counter does, as long as it stays in the signed range. -/
theorem increased_eq {m : Memory.Contents} {s : Contents}
    (mirrors : Mirrors codec m s) (room : (m.counter p).toNat + 1 < Word.half) :
    View.increased (s.counters.find? p.name) = .ok (cellOf (m.counter p + 1)) := by
  rw [mirrors.counters.find? Partition.name_embeds]
  unfold Memory.Contents.counter at room ⊢
  cases counted : m.counters.find? p with
  | none => rfl
  | some n =>
    rw [counted] at room
    have room : n.toNat + 1 < Word.half := room
    have inside : n.toInt64 ≠ Int64.maxValue := by
      rw [Ne, toInt64_eq_maxValue (by omega)]
      omega
    show Except.ok (if n.toInt64 = Int64.maxValue then _ else _) = _
    rw [if_neg inside]
    rfl

theorem counted (twins : Twins codec v w) (p : Partition) (n : UInt64) :
    Twins codec { v with contents := v.contents.count p n }
      { w with contents :=
        { w.contents with counters := w.contents.counters.insert p.name (cellOf n) } } :=
  { twins with mirrors := twins.mirrors.count p n, fits := twins.fits.count }

/-- What comes after the guard runs on the same views, when they can be written to. -/
theorem guardWrite_matched {α : Type} {Q : α → Prop} {E : Failure → Failure → Prop}
    (same : ∀ e, E e e) {op : String} {f : Unit → Step Memory.View α} {g : Unit → Step View α}
    (twins : Twins codec v w) (later : v.writable = true → Matched (Twins codec) E Q (f () v) (g () w)) :
    Matched (Twins codec) E Q ((Memory.View.guardWrite op >>= f) v) ((View.guardWrite op >>= g) w) := by
  by_cases writable : v.writable = true
  · have left : Memory.View.guardWrite op v = (.ok (), v) := by
      simp [Memory.View.guardWrite, look, writable]
    have right : View.guardWrite op w = (.ok (), w) := by
      simp [View.guardWrite, look, ← twins.writable, writable]
    rw [bind_of_ok left, bind_of_ok right]
    exact later writable
  · have left : Memory.View.guardWrite op v =
        (.error (.during .persistence op "write attempted on a read-only snapshot"), v) := by
      simp [Memory.View.guardWrite, look, writable]
    have right : View.guardWrite op w =
        (.error (.during .persistence op "write attempted on a read-only snapshot"), w) := by
      simp [View.guardWrite, look, ← twins.writable, writable]
    rw [bind_of_error left, bind_of_error right]
    exact .error (same _) twins

theorem succ_ne_zero {n : UInt64} (room : n.toNat + 1 < Word.half) : n + 1 ≠ 0 := by
  intro ended
  have value := congrArg UInt64.toNat ended
  simp only [UInt64.toNat_add, UInt64.toNat_one, UInt64.toNat_zero, Word.half] at value room
  omega

theorem raiseRevision_matched (twins : Twins codec v w)
    (room : (v.contents.counter p).toNat + 1 < Word.half) :
    Matched (Twins codec) Eq (fun _ => True) (ConceptStore.raiseRevision p v)
      (ConceptStore.raiseRevision p w) := by
  refine guardWrite_matched (fun _ => rfl) twins fun _ => ?_
  have positive := succ_ne_zero room
  have grown : Step.look (fun w : View => View.increased (w.contents.counters.find? p.name)) w =
      (.ok (cellOf (v.contents.counter p + 1)), w) := by
    rw [look, increased_eq twins.mirrors room]
  have asked : Step.gets (fun v : Memory.View => v.contents.counter p) v =
      (.ok (v.contents.counter p), v) := rfl
  have after := counted twins p (v.contents.counter p + 1)
  have told : ConceptStore.currentRevision
      { v with contents := v.contents.count p (v.contents.counter p + 1) } p =
      .ok (v.contents.counter p + 1) := by
    show Except.ok _ = _
    rw [Memory.Contents.counter_count, if_pos rfl]
  have read := (after.currentRevision_eq p).trans told
  rw [bind_of_ok asked, bind_of_ok grown, if_neg positive]
  exact Matched.of_ok trivial after read

theorem nextRevision_matched (twins : Twins codec v w)
    (room : (v.contents.counter p).toNat + 1 < Word.half) :
    Matched (Twins codec) Eq (fun _ => True) (ConceptStore.nextRevision p v)
      (ConceptStore.nextRevision p w) := by
  have left : Step.look (fun v : Memory.View => ConceptStore.currentRevision v p) v =
      (.ok (v.contents.counter p), v) := rfl
  have right : Step.look (fun w : View => ConceptStore.currentRevision w p) w =
      (.ok (v.contents.counter p), w) := by
    rw [look, twins.currentRevision_eq]
    rfl
  unfold ConceptStore.nextRevision
  rw [bind_of_ok left, bind_of_ok right]
  exact (raiseRevision_matched twins room).bind fun _ _ _ _ states =>
    Alike.lift (fun _ _ => trivial) (fun _ _ => rfl) _ _ states

/-- A counter at the end of the signed range cannot be raised on tables. -/
theorem nextRevision_exhausted (twins : Twins codec v w) (writable : v.writable = true)
    (last : (v.contents.counter p).toNat + 1 = Word.half) :
    ∃ f w', ConceptStore.nextRevision p w = (.error f, w') := by
  have cell : w.contents.counters.find? p.name = some (.whole Int64.maxValue) := by
    rw [twins.mirrors.counters.find? Partition.name_embeds]
    unfold Memory.Contents.counter at last
    cases counted : v.contents.counters.find? p with
    | none =>
      rw [counted] at last
      exact absurd last (by decide)
    | some n =>
      rw [counted] at last
      have last : n.toNat + 1 = Word.half := last
      show some (IntegerCell.whole n.toInt64) = _
      rw [(toInt64_eq_maxValue (by omega)).mpr last]
  have read : Step.look (fun w : View => ConceptStore.currentRevision w p) w =
      (.ok (v.contents.counter p), w) := by
    rw [look, twins.currentRevision_eq]
    rfl
  have guarded : View.guardWrite "allocate_revision" w = (.ok (), w) := by
    simp [View.guardWrite, look, ← twins.writable, writable]
  have grown : Step.look (fun w : View => View.increased (w.contents.counters.find? p.name)) w =
      (.ok .other, w) := by
    rw [look, cell]
    rfl
  let full : View := { w with contents :=
    { w.contents with counters := w.contents.counters.insert p.name .other } }
  have changed : View.change (fun s => { s with counters := s.counters.insert p.name .other }) w =
      (.ok (), full) := rfl
  have unread : Step.look (fun w : View => w.currentRevision p) full =
      (.error (refusal "the cell holds no whole number"), full) := by
    simp only [look, View.currentRevision, full, SortedMap.find?_insert_self]
    rfl
  have raised : ConceptStore.raiseRevision p w =
      (.error (refusal "the cell holds no whole number"), full) :=
    (bind_of_ok guarded).trans ((bind_of_ok grown).trans ((bind_of_ok changed).trans unread))
  exact ⟨_, _, (bind_of_ok read).trans (bind_of_error raised)⟩

end Revisions

section Log

variable {codec : TextCodec} {v : Memory.View} {w : View} {p : Partition}

/-- Failures of one kind. -/
def SameKind (e f : Failure) : Prop := e.kind = f.kind

theorem SameKind.refl (e : Failure) : SameKind e e := Eq.refl e.kind

theorem appendOne_alike {r : RevisionRecord} (storable : Storable r) :
    Alike (Twins codec) SameKind (fun _ => True) (Memory.View.appendOne r) (View.appendOne r) := by
  intro v w twins
  have left : Step.gets (fun v : Memory.View => v.contents.logged r) v =
      (.ok (v.contents.logged r), v) := rfl
  have right : Step.gets (fun w : View => w.contents.log.contains (logKeyOf r)) w =
      (.ok (v.contents.logged r), w) := by
    rw [gets, log_contains twins.mirrors twins.fits]
  unfold Memory.View.appendOne View.appendOne
  rw [bind_of_ok left, bind_of_ok right]
  cases fresh : v.contents.logged r with
  | true => exact .error rfl twins
  | false =>
    exact .ok trivial
      { twins with mirrors := twins.mirrors.record r, fits := twins.fits.record storable fresh }

theorem append_alike {records : List RevisionRecord} (storable : ∀ r ∈ records, Storable r) :
    Alike (Twins codec) SameKind (fun _ => True) (ConceptStore.append records)
      (ConceptStore.append records) := by
  intro v w twins
  refine guardWrite_matched SameKind.refl twins fun _ => ?_
  have asked : Step.gets (fun v : Memory.View => v.rejectsLog) v = (.ok false, v) := by
    simp [gets, twins.accepts]
  rw [bind_of_ok asked]
  exact Alike.forEach (fun r member => appendOne_alike (storable r member)) v w twins

/-- Changes under a revision in the signed range, with legible states, are logged alike. -/
theorem logChanges_alike {revision : UInt64} {changed : List Change}
    (bound : revision.toNat < Word.half)
    (legible : ∀ change ∈ changed, ∀ c ∈ change.state, c.Legible) :
    Alike (Twins codec) SameKind (fun _ => True) (ConceptStore.logChanges p revision changed)
      (ConceptStore.logChanges p revision changed) := by
  refine Alike.bind (Q := fun records => ∀ r ∈ records, Storable r) (.look fun v w twins => ?_)
    fun records storable => (append_alike storable).bind fun _ _ => .pure trivial
  have times : ConceptStore.time v = ConceptStore.time w := twins.time
  refine ⟨by rw [times], fun records recorded r member => ?_, fun e _ => SameKind.refl e⟩
  rw [eq_map_of_mapM (fun _ _ _ made => Batch.recordOf_ok made) recorded] at member
  obtain ⟨change, inside, rfl⟩ := List.mem_map.mp member
  exact ⟨bound, legible change inside, twins.whole⟩

end Log

end Tables

namespace StoreCall

open Step Tables

/-- A call that tables can serve as a store in memory does: its concepts are legible, its records
can be stored, its bound is plain, and the counter that it raises stays in the signed range. -/
def Fitting (v : Memory.View) : StoreCall → Prop
  | write _ c | update _ c => c.Legible
  | raiseRevision p | nextRevision p => (v.contents.counter p).toNat + 1 < Word.half
  | append records => ∀ r ∈ records, Storable r
  | revisionsAsOf _ _ bound | statesAsOf _ _ bound => bound.Plain
  | logChanges _ revision changed => revision.toNat < Word.half ∧
    ∀ change ∈ changed, ∀ c ∈ change.state, c.Legible
  | _ => True

variable {codec : TextCodec} {v : Memory.View} {w : View}

/-- The same answer, or failures of one kind. -/
inductive SameAnswer {α : Type} : Except Failure α → Except Failure α → Prop
  | ok (a : α) : SameAnswer (.ok a) (.ok a)
  | error {e f : Failure} (failures : SameKind e f) : SameAnswer (.error e) (.error f)

/-- A call that only looks goes alike where it sees the same. -/
theorem look_matched {α β : Type} (twins : Twins codec v w) {f : Memory.View → Except Failure α}
    {g : View → Except Failure α} (same : g w = f v) (answer : α → β) :
    Matched (Twins codec) SameKind (fun _ => True) ((answer <$> Step.look f) v)
      ((answer <$> Step.look g) w) := by
  have outcomes : Matched (Twins codec) SameKind (fun _ => True) (Step.look f v) (Step.look g w) := by
    rw [look, look, same]
    cases f v with
    | ok a => exact .ok trivial twins
    | error e => exact .error (SameKind.refl e) twins
  exact outcomes.bind fun _ _ _ _ states => .ok trivial states

theorem map_matched {α β : Type} {E : Failure → Failure → Prop} {x : Step Memory.View α}
    {y : Step View α} (outcomes : Matched (Twins codec) E (fun _ => True) (x v) (y w))
    (matching : ∀ e f, E e f → SameKind e f) (answer : α → β) :
    Matched (Twins codec) SameKind (fun _ => True) ((answer <$> x) v) ((answer <$> y) w) :=
  (outcomes.imp (fun _ _ => id) matching fun _ => id).bind fun _ _ _ _ states => .ok trivial states

/-- A fitting call answers the same on both views or fails on both, and leaves them together. -/
theorem run_matched (twins : Twins codec v w) {call : StoreCall} (fitting : call.Fitting v) :
    Matched (Twins codec) SameKind (fun _ => True) (call.run v) (call.run w) := by
  have equal : ∀ e f : Failure, e = f → SameKind e f := by
    rintro e f rfl
    exact SameKind.refl e
  cases call with
  | read p t ids => exact look_matched twins (twins.read_eq p t ids) _
  | readCached p ids => exact look_matched twins (twins.readCached_eq p ids) _
  | find p id => exact look_matched twins (by rw [twins.find?_eq]) _
  | write p c => exact map_matched (write_alike fitting v w twins) equal _
  | update p c => exact map_matched (update_alike fitting v w twins) equal _
  | delete p id => exact map_matched (delete_alike id v w twins) equal _
  | currentRevision p => exact look_matched twins (twins.currentRevision_eq p) _
  | raiseRevision p => exact map_matched (raiseRevision_matched twins fitting) equal _
  | append records => exact map_matched (append_alike fitting v w twins) (fun _ _ => id) _
  | revisionsAsOf p ids bound => exact look_matched twins (twins.revisionsAsOf_eq p ids fitting) _
  | history p id => exact look_matched twins (twins.history_eq p id) _
  | nextRevision p => exact map_matched (nextRevision_matched twins fitting) equal _
  | logChanges p revision changed =>
    exact map_matched (logChanges_alike fitting.1 fitting.2 v w twins) (fun _ _ => id) _
  | statesAsOf p ids bound => exact look_matched twins (twins.statesAsOf_eq p ids fitting) _

/-- What a history is answered with is the history. -/
theorem history_of_answer {w : View} {p : Partition} {id : ConceptId} {records : List RevisionRecord}
    (same : SameAnswer (.ok (.records records)) ((history p id).run w).1) :
    ConceptStore.history w p id = .ok records := by
  cases answered : ConceptStore.history w p id with
  | ok found =>
    have looked : Step.look (fun w : View => ConceptStore.history w p id) w = (.ok found, w) := by
      rw [look, answered]
    have run : (history p id).run w = (.ok (.records found), w) := bind_of_ok looked
    rw [run] at same
    cases same
    rfl
  | error e =>
    have looked : Step.look (fun w : View => ConceptStore.history w p id) w = (.error e, w) := by
      rw [look, answered]
    have run : (history p id).run w = (.error e, w) := bind_of_error looked
    rw [run] at same
    cases same

section Sessions

variable {σ : Type} [ConceptStore σ]

/-- Makes calls on a view one after the other, whether they fail or not. -/
def runEach : List StoreCall → σ → List (Except Failure StoreAnswer) × σ
  | [], v => ([], v)
  | call :: rest, v =>
    let (answer, v) := call.run v
    let (answers, v) := runEach rest v
    (answer :: answers, v)

/-- Whether each of several calls is fitting when its turn has come. -/
def AllFitting : List StoreCall → Memory.View → Prop
  | [], _ => True
  | call :: rest, v => call.Fitting v ∧ AllFitting rest (call.run v).2

end Sessions

theorem runEach_matched {calls : List StoreCall} (twins : Twins codec v w)
    (fitting : AllFitting calls v) :
    List.Forall₂ SameAnswer (runEach calls v).1 (runEach calls w).1 ∧
      Twins codec (runEach calls v).2 (runEach calls w).2 := by
  induction calls generalizing v w with
  | nil => exact ⟨.nil, twins⟩
  | cons call rest ih =>
    obtain ⟨first, later⟩ := fitting
    have outcomes := run_matched twins first
    unfold runEach
    generalize call.run v = outcome at outcomes later ⊢
    generalize call.run w = outcome' at outcomes ⊢
    cases outcomes with
    | ok _ states =>
      obtain ⟨answers, after⟩ := ih states later
      exact ⟨.cons (.ok _) answers, after⟩
    | error failures states =>
      obtain ⟨answers, after⟩ := ih states later
      exact ⟨.cons (.error failures) answers, after⟩

end StoreCall

end ConceptLedger
