import ConceptLedger.Proofs.Read.Alike
import ConceptLedger.Proofs.Step.Alike
import ConceptLedger.Proofs.Store.Answer

/-!
Cached reads. A cached read never looks at the current states of the concepts it is asked for, and
goes down the containment lists of logged states. It answers like a live read since the log ends
with the current states; containers are looked up among these in either mode.
-/

namespace ConceptLedger

open Step Memory

namespace Memory.View

variable {v : View}

/-- The newest logged states are the stored concepts. -/
theorem readCached_eq (logged : v.contents.Logged) (p : Partition) (ids : List ConceptId) :
    ConceptStore.readCached v p ids = .ok (ids.filterMap (v.contents.find? p)) :=
  congrArg Except.ok (List.filterMap_congr fun id _ => (logged p id).symm)

end Memory.View

/-- Two reads that give one answer, which is a good one, and one journal, and do not fail. -/
def SameAnswer {α : Type} (Q : α → Prop) (x y : ReadStep α) : Prop :=
  Step.Alike Eq (fun _ _ => False) Q x y

namespace SameAnswer

variable {α β : Type} {Q : α → Prop} {Q' : β → Prop}

theorem found {x y : ReadStep α} (same : SameAnswer Q x y) (journal : Journal) :
    ∃ a journal', Q a ∧ x journal = (.ok a, journal') ∧ y journal = (.ok a, journal') := by
  have outcomes := same journal journal rfl
  generalize x journal = first at outcomes
  generalize y journal = second at outcomes
  cases outcomes with
  | ok good states => exact ⟨_, _, good, rfl, by rw [states]⟩
  | error impossible _ => exact impossible.elim

theorem pure {a : α} (good : Q a) : SameAnswer Q (pure a) (pure a) := Alike.pure good

theorem bind {x y : ReadStep α} {f g : α → ReadStep β} (first : SameAnswer Q x y)
    (later : ∀ a, Q a → SameAnswer Q' (f a) (g a)) : SameAnswer Q' (x >>= f) (y >>= g) :=
  Alike.bind first later

theorem lift {a : α} {x y : Except Failure α} (good : Q a) (left : x = .ok a) (right : y = .ok a) :
    SameAnswer Q (Step.lift x) (Step.lift y) := by
  subst left right
  exact Alike.lift (fun _ answered => Except.ok.inj answered ▸ good) fun _ failed => nomatch failed

end SameAnswer

namespace Reader

/-- The reader in another mode. -/
def inMode (r : Reader View) (mode : ReadMode) : Reader View :=
  { r with options := { r.options with mode } }

/-- A concept that is stored where a reader reads. -/
def Stored (r : Reader View) (c : Concept) : Prop :=
  r.view.contents.find? r.partition c.id = some c

variable {r : Reader View}

theorem contextOf_total (c : Concept) : ∃ security, r.contextOf c = .ok security := by
  unfold contextOf
  cases c.container with
  | none => exact ⟨_, rfl⟩
  | some id =>
    dsimp only
    rw [View.find?_eq]
    exact ⟨_, rfl⟩

theorem children_total (c : Concept) : ∃ pending, r.children c = .ok pending := by
  obtain ⟨security, context⟩ := contextOf_total (r := r) c
  unfold children
  split
  · exact ⟨_, rfl⟩
  · rw [context]
    exact ⟨_, rfl⟩

theorem accept_total (s : Progress) (c : Concept) : ∃ s', r.accept s c = .ok s' := by
  obtain ⟨pending, held⟩ := children_total (r := r) c
  unfold accept
  split
  · exact ⟨_, rfl⟩
  · rw [held]
    exact ⟨_, rfl⟩

theorem acceptAll_total (cs : List Concept) (s : Progress) :
    ∃ s', cs.foldlM r.accept s = .ok s' := by
  induction cs generalizing s with
  | nil => exact ⟨s, rfl⟩
  | cons c rest ih =>
    obtain ⟨s', first⟩ := accept_total (r := r) s c
    rw [List.foldlM_cons, first]
    exact ih s'

variable (logged : r.view.contents.Logged) (keyed : r.view.contents.Keyed) (mode : ReadMode)

include logged in
/-- In either mode the stored concepts of a type are loaded. -/
theorem load_eq (t : Option ConceptType) (ids : List ConceptId) :
    r.load t ids = .ok (pick ids ((ids.filterMap (r.view.contents.find? r.partition)).filter
      fun c => t.all fun t => c.conceptType = t)) := by
  unfold load
  cases ids with
  | nil => rfl
  | cons id rest =>
    cases r.options.mode with
    | live => rfl
    | cached =>
      dsimp only
      rw [View.readCached_eq logged]
      rfl

/-- What may not be read is held back in the same way in every mode. -/
theorem sift_inMode (security : SecurityContext) {cs : List Concept}
    (stored : ∀ c ∈ cs, r.Stored c) :
    SameAnswer (fun found => ∀ c ∈ found, r.Stored c) ((r.inMode mode).sift security cs)
      (r.sift security cs) := by
  rintro journal _ rfl
  exact .ok (fun c member => stored c (List.mem_filter.mp member).1) rfl

theorem siftEach_inMode (security : Option SecurityContext) {cs : List Concept}
    (stored : ∀ c ∈ cs, r.Stored c) :
    SameAnswer (fun found => ∀ c ∈ found, r.Stored c) ((r.inMode mode).siftEach security cs)
      (r.siftEach security cs) := by
  induction cs with
  | nil => exact .pure fun c member => nomatch member
  | cons c rest ih =>
    obtain ⟨first, others⟩ := List.forall_mem_cons.mp stored
    have siftOne : ∀ context,
        SameAnswer (fun found => ∀ c ∈ found, r.Stored c) ((r.inMode mode).sift context [c])
          (r.sift context [c]) :=
      fun context => sift_inMode mode context (List.forall_mem_singleton.mpr first)
    have siftAll : ∀ context,
        SameAnswer (fun found => ∀ c ∈ found, r.Stored c)
          (do
            let first ← (r.inMode mode).sift context [c]
            let later ← (r.inMode mode).siftEach security rest
            pure (first ++ later))
          (do
            let first ← r.sift context [c]
            let later ← r.siftEach security rest
            pure (first ++ later)) :=
      fun context => (siftOne context).bind fun here good => (ih others).bind fun later good' =>
        .pure fun c member => (List.mem_append.mp member).elim (good c) (good' c)
    cases security with
    | some context => exact (SameAnswer.lift (Q := fun _ => True) trivial rfl rfl).bind fun s _ => siftAll s
    | none =>
      obtain ⟨own, known⟩ := contextOf_total (r := r) c
      exact (SameAnswer.lift (Q := fun _ => True) trivial known known).bind fun s _ => siftAll s

include logged keyed

theorem load_inMode (t : Option ConceptType) (ids : List ConceptId) :
    SameAnswer (fun found => ∀ c ∈ found, r.Stored c)
      (Step.lift ((r.inMode mode).load t ids)) (Step.lift (r.load t ids)) := by
  refine .lift (fun c member => ?_) (load_eq (r := r.inMode mode) logged t ids) (load_eq logged t ids)
  obtain ⟨inside, -⟩ := List.mem_filter.mp (pick_subset _ _ c member)
  obtain ⟨id, -, found⟩ := List.mem_filterMap.mp inside
  rw [Stored, keyed ⟨r.partition, id⟩ c found]
  exact found

theorem shallow_inMode (ids : List ConceptId) (security : Option SecurityContext) :
    SameAnswer (fun found => ∀ c ∈ found, r.Stored c) ((r.inMode mode).shallow ids security)
      (r.shallow ids security) :=
  (load_inMode logged keyed mode none ids).bind fun _ stored => siftEach_inMode mode security stored

theorem resolve_inMode (t : ConceptType) (ids : List ConceptId) (security : SecurityContext) :
    SameAnswer (fun found => ∀ c ∈ found, r.Stored c) ((r.inMode mode).resolve t ids security)
      (r.resolve t ids security) :=
  (load_inMode logged keyed mode (some t) ids).bind fun _ stored => sift_inMode mode security stored

theorem descend_inMode (turns : Nat) (s : Progress) :
    SameAnswer (fun _ => True) ((r.inMode mode).descend turns s) (r.descend turns s) := by
  induction turns generalizing s with
  | zero => exact .pure trivial
  | succ turns ih =>
    unfold descend
    cases s.pending with
    | nil => exact .pure trivial
    | cons next pending =>
      refine (resolve_inMode logged keyed mode _ _ _).bind fun here _ => ?_
      obtain ⟨s', accepted⟩ := acceptAll_total (r := r) here { s with pending }
      exact (SameAnswer.lift (Q := fun _ => True) trivial accepted accepted).bind fun s'' _ => ih s''

theorem deep_inMode (ids : List ConceptId) (security : Option SecurityContext) :
    SameAnswer (fun _ => True) ((r.inMode mode).deep ids security) (r.deep ids security) := by
  refine (shallow_inMode logged keyed mode ids security).bind fun top _ => ?_
  obtain ⟨start, accepted⟩ := acceptAll_total (r := r) top {}
  exact (SameAnswer.lift (Q := fun _ => True) trivial accepted accepted).bind fun start _ =>
    descend_inMode logged keyed mode _ start

end Reader

namespace Memory

variable {α : Type}

/-- The view that a reading of a store takes. -/
def Database.viewAt (db : Database) (now : Instant) : View :=
  ⟨db.contents, db.nextTime now, false, db.rejectsLog⟩

/-- Readings of a store at different times see the same. -/
theorem Database.viewAt_showsSame (db : Database) (now now' : Instant) :
    ShowsSame (fun _ => True) (db.viewAt now) (db.viewAt now') where
  read _ _ _ := rfl
  readCached _ _ := rfl
  statesAsOf _ _ _ _ := rfl
  history _ _ := rfl
  extent := rfl

theorem reading_of_found (policy : Policy) (op : String) (actor : Actor) (p : Partition)
    (options : ReadOptions) (now : Instant) {body : Reader View → ReadStep α} {db : Database}
    (available : db.unavailable = false) {found : α} {journal : Journal}
    (read : body ⟨db.viewAt now, policy.gate, actor, p, options⟩ [] = (.ok found, journal)) :
    (policy.reading op actor p options now body db).1 =
      ⟨.ok found, .readStarted op p :: journal ++ [.readEnded op]⟩ := by
  have opened : Transactional.openRead now db =
      (.ok (db.viewAt now), { db with lastTime := some (db.nextTime now) }) :=
    openView_of_available false now available
  simp only [Policy.reading, opened, read]

/-- Cached reads answer just what live reads answer, and report the same, after every history. -/
theorem cached_eq_live (visits : List Visit) (policy : Policy) (actor : Actor) (p : Partition)
    (ids : List ConceptId) (excludeSoftDeleted : Bool) (now now' : Instant) :
    (∃ found journal,
      (policy.readShallow actor p ids ⟨.cached, excludeSoftDeleted⟩ now (Database.after visits)).1 =
        ⟨.ok found, journal⟩ ∧
      (policy.readShallow actor p ids ⟨.live, excludeSoftDeleted⟩ now' (Database.after visits)).1 =
        ⟨.ok found, journal⟩) ∧
    ∃ found journal,
      (policy.readDeep actor p ids ⟨.cached, excludeSoftDeleted⟩ now (Database.after visits)).1 =
        ⟨.ok found, journal⟩ ∧
      (policy.readDeep actor p ids ⟨.live, excludeSoftDeleted⟩ now' (Database.after visits)).1 =
        ⟨.ok found, journal⟩ := by
  have available := unavailable_after visits
  have logged := logged_after visits
  have keyed := (sound_after visits).keyed
  generalize Database.after visits = db at *
  -- the mode is changed first, at one time, and then the time of the cached reading
  let live : Reader View := ⟨db.viewAt now', policy.gate, actor, p, ⟨.live, excludeSoftDeleted⟩⟩
  have twins := db.viewAt_showsSame now' now
  constructor
  · obtain ⟨found, journal, -, cached, direct⟩ :=
      (Reader.shallow_inMode (r := live) logged keyed .cached ids none).found []
    rw [← Reader.shallow_onto (r := live.inMode .cached) twins] at cached
    exact ⟨found, _, reading_of_found policy _ actor p _ now available cached,
      reading_of_found policy _ actor p _ now' available direct⟩
  · obtain ⟨found, journal, -, cached, direct⟩ :=
      (Reader.deep_inMode (r := live) logged keyed .cached ids none).found []
    rw [← Reader.deep_onto (r := live.inMode .cached) twins] at cached
    exact ⟨found, _, reading_of_found policy _ actor p _ now available cached,
      reading_of_found policy _ actor p _ now' available direct⟩

end Memory

end ConceptLedger
