import ConceptLedger.Proofs.Hook.Standard
import ConceptLedger.Proofs.Store.Discipline

/-!
What readers are told. Every state that a read answers, of whatever sort the read is, stands in the
log as a state of the concept it is told of.
-/

namespace ConceptLedger

/-- The states that an answer tells. -/
def QueryAnswer.states : QueryAnswer → List Concept
  | concepts found => found
  | records found => found.filterMap (·.state)

namespace Reader

open Step

variable {σ : Type} [ConceptStore σ] {r : Reader σ}

theorem pick_subset (ids : List ConceptId) (found : List Concept) :
    ∀ c ∈ pick ids found, c ∈ found := by
  induction ids generalizing found with
  | nil => exact fun c member => nomatch member
  | cons id rest ih =>
    intro c member
    unfold pick at member
    split at member
    · rename_i last picked
      rcases List.mem_cons.mp member with rfl | later
      · exact (List.mem_filter.mp (List.mem_of_getLast? picked)).1
      · exact (List.mem_filter.mp (ih _ c later)).1
    · exact ih found c member

omit [ConceptStore σ] in
theorem sift_subset {security : SecurityContext} {cs found : List Concept}
    {journal journal' : Journal} (run : r.sift security cs journal = (.ok found, journal')) :
    ∀ c ∈ found, c ∈ cs := by
  cases run
  exact fun c member => (List.mem_filter.mp member).1

/-- What is answered of concepts that are judged one by one is answered in their order. -/
theorem siftEach_sublist {security : Option SecurityContext} {cs found : List Concept}
    {journal journal' : Journal} (run : r.siftEach security cs journal = (.ok found, journal')) :
    found.Sublist cs := by
  induction cs generalizing journal found journal' with
  | nil =>
    obtain ⟨rfl, -⟩ := pure_eq_ok_iff.mp run
    exact .slnil
  | cons first rest ih =>
    obtain ⟨context, _, -, run⟩ := bind_eq_ok_iff.mp run
    obtain ⟨here, _, sifted, run⟩ := bind_eq_ok_iff.mp run
    obtain ⟨later, _, others, run⟩ := bind_eq_ok_iff.mp run
    obtain ⟨rfl, -⟩ := pure_eq_ok_iff.mp run
    cases sifted
    exact List.filter_sublist.append (ih others)

theorem siftEach_subset {security : Option SecurityContext} {cs found : List Concept}
    {journal journal' : Journal} (run : r.siftEach security cs journal = (.ok found, journal')) :
    ∀ c ∈ found, c ∈ cs :=
  fun _ member => (siftEach_sublist run).subset member

section Loads

variable {P : Concept → Prop}
  (loads : ∀ t ids found, r.load t ids = .ok found → ∀ c ∈ found, P c)

include loads

theorem shallow_loaded {ids : List ConceptId} {security : Option SecurityContext}
    {found : List Concept} {journal journal' : Journal}
    (run : r.shallow ids security journal = (.ok found, journal')) : ∀ c ∈ found, P c := by
  obtain ⟨all, loaded, run⟩ := lift_bind_eq_ok_iff.mp run
  exact fun c member => loads _ _ _ loaded c (siftEach_subset run c member)

theorem resolve_loaded {t : ConceptType} {ids : List ConceptId} {security : SecurityContext}
    {found : List Concept} {journal journal' : Journal}
    (run : r.resolve t ids security journal = (.ok found, journal')) : ∀ c ∈ found, P c := by
  obtain ⟨all, loaded, run⟩ := lift_bind_eq_ok_iff.mp run
  exact fun c member => loads _ _ _ loaded c (sift_subset run c member)

omit loads in
theorem accept_found {s s' : Progress} {c : Concept} (run : r.accept s c = .ok s') :
    ∀ x ∈ s'.found, x ∈ s.found ∨ x = c := by
  unfold accept at run
  split at run
  · cases run
    exact fun x member => .inl member
  · obtain ⟨pending, -, rfl⟩ := Except.map_ok run
    exact fun x member => (List.mem_append.mp member).imp id List.mem_singleton.mp

omit loads in
theorem acceptAll_found {cs : List Concept} {s s' : Progress}
    (run : cs.foldlM r.accept s = .ok s') (before : ∀ c ∈ s.found, P c) (new : ∀ c ∈ cs, P c) :
    ∀ c ∈ s'.found, P c := by
  induction cs generalizing s with
  | nil =>
    cases run
    exact before
  | cons first rest ih =>
    rw [List.foldlM_cons] at run
    obtain ⟨middle, accepted, run⟩ := Except.bind_ok run
    refine ih run (fun c member => ?_) fun c member => new c (List.mem_cons_of_mem _ member)
    rcases accept_found accepted c member with old | rfl
    · exact before c old
    · exact new c List.mem_cons_self

theorem descend_loaded {turns : Nat} {s : Progress} {found : List Concept}
    {journal journal' : Journal} (before : ∀ c ∈ s.found, P c)
    (run : r.descend turns s journal = (.ok found, journal')) : ∀ c ∈ found, P c := by
  induction turns generalizing s journal with
  | zero =>
    obtain ⟨rfl, -⟩ := pure_eq_ok_iff.mp run
    exact before
  | succ turns ih =>
    unfold descend at run
    cases queued : s.pending with
    | nil =>
      rw [queued] at run
      obtain ⟨rfl, -⟩ := pure_eq_ok_iff.mp run
      exact before
    | cons next pending =>
      rw [queued] at run
      obtain ⟨here, _, resolved, run⟩ := bind_eq_ok_iff.mp run
      obtain ⟨s', accepted, run⟩ := lift_bind_eq_ok_iff.mp run
      exact ih (acceptAll_found accepted before (resolve_loaded loads resolved)) run

theorem deep_loaded {ids : List ConceptId} {security : Option SecurityContext}
    {found : List Concept} {journal journal' : Journal}
    (run : r.deep ids security journal = (.ok found, journal')) : ∀ c ∈ found, P c := by
  obtain ⟨top, _, shallow, run⟩ := bind_eq_ok_iff.mp run
  obtain ⟨start, accepted, run⟩ := lift_bind_eq_ok_iff.mp run
  exact descend_loaded loads
    (acceptAll_found accepted (fun _ member => nomatch member) (shallow_loaded loads shallow)) run

end Loads

end Reader

namespace Memory

open Step

/-- The log has a state among the records of the concept of its identifier. -/
def Contents.Tells (s : Contents) (p : Partition) (c : Concept) : Prop :=
  ∃ r ∈ s.recordsOf p c.id, r.state = some c

/-- Contents whose log is in order and ends with what is stored. -/
structure Contents.Chronicled (s : Contents) : Prop where
  sound : s.Sound
  logged : s.Logged
  ordered : s.Ordered
  faithful : s.Faithful

theorem chronicled_after (visits : List Visit) : (Database.after visits).contents.Chronicled :=
  ⟨sound_after visits, logged_after visits, (ordered_after visits).1, (ordered_after visits).2⟩

namespace Contents.Chronicled

variable {s : Contents} {p : Partition}

theorem tells_record (chronicled : s.Chronicled) {id : ConceptId} {r : RevisionRecord}
    {c : Concept} (member : r ∈ s.recordsOf p id) (state : r.state = some c) : s.Tells p c := by
  obtain ⟨inside, address⟩ := mem_recordsOf.mp member
  have same : c.id = id :=
    (chronicled.faithful r inside c state).1.trans (congrArg Address.id address)
  exact ⟨r, same ▸ member, state⟩

theorem tells_latest (chronicled : s.Chronicled) {id : ConceptId}
    {within : RevisionRecord → Bool} {c : Concept}
    (found : (s.latest? p id within).bind (·.state) = some c) : s.Tells p c := by
  obtain ⟨r, latest, state⟩ := Option.bind_eq_some_iff.mp found
  exact chronicled.tells_record (List.mem_filter.mp (Reader.newest?_mem latest)).1 state

theorem tells_stored (chronicled : s.Chronicled) {id : ConceptId} {c : Concept}
    (stored : s.find? p id = some c) : s.Tells p c :=
  chronicled.tells_latest ((chronicled.logged p id).symm.trans stored)

theorem tells_seen (chronicled : s.Chronicled) {gate : Gate} {actor : Actor} {bound : AsOf}
    {ids : List ConceptId} : ∀ c ∈ gate.seen actor p (s.stateAsOf p bound) ids, s.Tells p c := by
  intro c member
  obtain ⟨id, -, found⟩ := List.mem_filterMap.mp member
  obtain ⟨state, -⟩ := Option.filter_eq_some_iff.mp found
  exact chronicled.tells_latest state

theorem tells_loaded (chronicled : s.Chronicled) {r : Reader View} (here : r.view.contents = s)
    (place : r.partition = p) (t : Option ConceptType) (ids : List ConceptId)
    (found : List Concept) (run : r.load t ids = .ok found) : ∀ c ∈ found, s.Tells p c := by
  subst here
  subst place
  unfold Reader.load at run
  split at run
  · cases run
    exact fun c member => nomatch member
  · obtain ⟨all, loaded, rfl⟩ := Except.map_ok run
    intro c member
    have member := Reader.pick_subset ids all c member
    cases mode : r.options.mode with
    | live =>
      simp only [mode] at loaded
      cases loaded
      have inside := (List.mem_filter.mp member).1
      obtain ⟨id, -, stored⟩ := List.mem_filterMap.mp inside
      exact chronicled.tells_stored stored
    | cached =>
      simp only [mode] at loaded
      obtain ⟨cached, read, rfl⟩ := Except.map_ok loaded
      cases read
      obtain ⟨id, -, latest⟩ := List.mem_filterMap.mp (List.mem_filter.mp member).1
      exact chronicled.tells_latest latest

theorem tells_history (chronicled : s.Chronicled) {r : Reader View} (here : r.view.contents = s)
    (place : r.partition = p) {id : ConceptId} {records : List RevisionRecord}
    (run : r.history id = .ok records) : ∀ c ∈ records.filterMap (·.state), s.Tells p c := by
  subst here
  subst place
  unfold Reader.history at run
  obtain ⟨all, collected, run⟩ := Except.bind_ok run
  have collected : sortByKey (·.revision) (r.view.contents.recordsOf r.partition id) = all :=
    Except.ok.inj collected
  have told : ∀ c ∈ all.filterMap (·.state), r.view.contents.Tells r.partition c := by
    intro c member
    obtain ⟨record, inside, state⟩ := List.mem_filterMap.mp member
    rw [← collected] at inside
    exact chronicled.tells_record ((sortByKey_perm _ _).mem_iff.mp inside) state
  split at run
  · cases run
    exact fun c member => nomatch member
  · obtain ⟨security, -, run⟩ := Except.bind_ok run
    cases run
    split
    · exact told
    · exact fun c member => nomatch member

end Contents.Chronicled

theorem reading_ok {α : Type} {policy : Policy} {op : String} {actor : Actor} {p : Partition}
    {options : ReadOptions} {now : Instant} {body : Reader View → ReadStep α} {db : Database}
    {a : α} (run : (policy.reading op actor p options now body db).1.result = .ok a) :
    ∃ (v : View) (journal : Journal), v.contents = db.contents ∧
      body ⟨v, policy.gate, actor, p, options⟩ [] = (.ok a, journal) := by
  unfold Policy.reading at run
  split at run
  · cases run
  · rename_i v db' opened
    have opened : db.openView false now = (.ok v, db') := opened
    have here := (openView_eq db false now).2 v (by rw [opened])
    exact ⟨v, _, here, Prod.ext run rfl⟩

/-- Whatever is read, every state that is told stands in the log. -/
theorem answer_tells {policy : Policy} {actor : Actor} {p : Partition} {query : Query}
    {now : Instant} {db : Database} {answer : QueryAnswer} (chronicled : db.contents.Chronicled)
    (read : (policy.answer actor p query now db).1.result = .ok answer) :
    ∀ c ∈ answer.states, db.contents.Tells p c := by
  cases query with
  | shallow ids options =>
    obtain ⟨found, run, rfl⟩ :=
      Except.map_ok (x := (policy.readShallow actor p ids options now db).1.result) read
    obtain ⟨v, journal, here, run⟩ := reading_ok run
    exact Reader.shallow_loaded (chronicled.tells_loaded here rfl) run
  | deep ids options =>
    obtain ⟨found, run, rfl⟩ :=
      Except.map_ok (x := (policy.readDeep actor p ids options now db).1.result) read
    obtain ⟨v, journal, here, run⟩ := reading_ok run
    exact Reader.deep_loaded (chronicled.tells_loaded here rfl) run
  | asOf ids bound =>
    obtain ⟨found, run, rfl⟩ :=
      Except.map_ok (x := (policy.readAsOf actor p ids bound now db).1.result) read
    obtain ⟨v, journal, here, run⟩ := reading_ok run
    obtain ⟨run, -⟩ := lift_eq_ok_iff.mp run
    rw [Reader.asOf_eq, here] at run
    cases run
    exact chronicled.tells_seen
  | history id =>
    obtain ⟨found, run, rfl⟩ :=
      Except.map_ok (x := (policy.readHistory actor p id now db).1.result) read
    obtain ⟨v, journal, here, run⟩ := reading_ok run
    obtain ⟨run, -⟩ := lift_eq_ok_iff.mp run
    exact chronicled.tells_history here rfl run

end Memory

end ConceptLedger
