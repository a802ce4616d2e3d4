import ConceptLedger.Proofs.Store.History

/-!
What reads answer, as a function of the states of a partition. A live read and a read of the past
differ only in where they take these states from.
-/

namespace ConceptLedger

/-- The requested concepts that an actor may read, given the states in a partition. -/
def Gate.seen (gate : Gate) (actor : Actor) (p : Partition) (state : ConceptId → Option Concept)
    (ids : List ConceptId) : List Concept :=
  ids.filterMap fun id => (state id).filter fun c =>
    gate.canRead actor c p (gate.contextFor actor p (c.container.bind state))

namespace Memory.Contents

/-- The state of a concept at a bound, according to the log. -/
def stateAsOf (s : Contents) (p : Partition) (bound : AsOf) (id : ConceptId) : Option Concept :=
  (s.latest? p id bound.includes).bind (·.state)

end Memory.Contents

namespace Reader

open Step Memory

/-- Picking what was found for different identifiers keeps all of it. -/
theorem pick_filterMap {state : ConceptId → Option Concept}
    (keyed : ∀ id c, state id = some c → c.id = id) {ids : List ConceptId} (nodup : ids.Nodup) :
    pick ids (ids.filterMap state) = ids.filterMap state := by
  induction ids with
  | nil => rfl
  | cons id rest ih =>
    obtain ⟨apart, tail⟩ := List.nodup_cons.mp nodup
    have others : ∀ c ∈ rest.filterMap state, c.id ≠ id := by
      intro c member same
      obtain ⟨other, inRest, found⟩ := List.mem_filterMap.mp member
      exact apart (same ▸ (keyed other c found).symm ▸ inRest)
    have none : (rest.filterMap state).filter (fun c => c.id = id) = [] :=
      List.filter_eq_nil_iff.mpr fun c member => by simpa using others c member
    have all : (rest.filterMap state).filter (fun c => c.id ≠ id) = rest.filterMap state :=
      List.filter_eq_self.mpr fun c member => by simpa using others c member
    cases found : state id with
    | none =>
      rw [List.filterMap_cons_none found, pick, none]
      exact ih tail
    | some c =>
      have same := keyed id c found
      rw [List.filterMap_cons_some found, pick, List.filter_cons_of_pos (by simpa using same), none,
        List.filter_cons_of_neg (by simpa using same), all, ih tail]
      rfl

section

variable (gate : Gate) (actor : Actor) (p : Partition) (v : View)

theorem contextOf_eq (c : Concept) :
    contextOf (⟨v, gate, actor, p, {}⟩ : Reader View) c =
      .ok (gate.contextFor actor p (c.container.bind (v.contents.find? p))) := by
  unfold contextOf
  cases c.container with
  | none => rfl
  | some id =>
    show (ConceptStore.find? v p id).map _ = _
    rw [View.find?_eq]
    rfl

theorem siftEach_ok (cs : List Concept) (journal : Journal) :
    ∃ journal', (⟨v, gate, actor, p, {}⟩ : Reader View).siftEach none cs journal =
      (.ok (cs.filter fun c => gate.canRead actor c p
        (gate.contextFor actor p (c.container.bind (v.contents.find? p)))), journal') := by
  induction cs generalizing journal with
  | nil => exact ⟨journal, rfl⟩
  | cons c rest ih =>
    have context := contextOf_eq gate actor p v c
    generalize hc : gate.contextFor actor p (c.container.bind (v.contents.find? p)) = security at context
    obtain ⟨journal', later⟩ := ih
      (journal ++ denials (⟨v, gate, actor, p, {}⟩ : Reader View) security [c])
    refine ⟨journal', bind_eq_ok_iff.mpr ⟨security, journal, lift_eq_ok_iff.mpr ⟨context, rfl⟩,
      bind_eq_ok_iff.mpr ⟨_, _, rfl, bind_eq_ok_iff.mpr ⟨_, _, later, pure_eq_ok_iff.mpr ⟨?_, rfl⟩⟩⟩⟩⟩
    rw [@List.filter_cons _ c rest, hc]
    cases readable : gate.canRead actor c p security <;>
      simp [admits, passesOver, permits, readable]

/-- A live read answers what is seen of the stored concepts. -/
theorem shallow_ok (keyed : v.contents.Keyed) {ids : List ConceptId} (nodup : ids.Nodup)
    (journal : Journal) :
    ∃ journal', (⟨v, gate, actor, p, {}⟩ : Reader View).shallow ids none journal =
      (.ok (gate.seen actor p (v.contents.find? p) ids), journal') := by
  have loaded : (⟨v, gate, actor, p, {}⟩ : Reader View).load none ids =
      .ok (ids.filterMap (v.contents.find? p)) := by
    cases ids with
    | nil => rfl
    | cons id rest =>
      have all : v.read p none (some (id :: rest)) = (id :: rest).filterMap (v.contents.find? p) :=
        List.filter_eq_self.mpr fun c _ => rfl
      show (Except.ok (v.read p none (some (id :: rest)))).map (pick (id :: rest)) = _
      rw [all]
      exact congrArg Except.ok (pick_filterMap (fun id c => keyed ⟨p, id⟩ c) nodup)
  obtain ⟨journal', sifted⟩ := siftEach_ok gate actor p v
    (ids.filterMap (v.contents.find? p)) journal
  refine ⟨journal', bind_eq_ok_iff.mpr ⟨_, journal, lift_eq_ok_iff.mpr ⟨loaded, rfl⟩, ?_⟩⟩
  rw [sifted, Gate.seen, List.filter_filterMap]

end

variable {gate : Gate} {actor : Actor} {p : Partition} {v : View}

theorem newest?_concat (records : List RevisionRecord) (r : RevisionRecord) :
    Contents.newest? (records ++ [r]) =
      match Contents.newest? records with
      | some b => if b.revision ≤ r.revision then some r else some b
      | none => some r := by
  unfold Contents.newest?
  rw [List.foldl_append]
  rfl

theorem newest?_mem {records : List RevisionRecord} {r : RevisionRecord}
    (found : Contents.newest? records = some r) : r ∈ records := by
  induction records using List.reverseRecOn generalizing r with
  | nil => cases found
  | append_singleton earlier last ih =>
    rw [newest?_concat] at found
    split at found
    · rename_i b best
      split at found
      · cases found
        simp
      · cases found
        exact List.mem_append_left _ (ih best)
    · cases found
      simp

theorem latest?_address {s : Contents} {id : ConceptId} {within : RevisionRecord → Bool}
    {r : RevisionRecord} (found : s.latest? p id within = some r) :
    r.partition = p ∧ r.conceptId = id := by
  have member := (List.mem_filter.mp (newest?_mem found)).1
  simpa using (List.mem_filter.mp member).2

/-- The states at a bound that a read collects are those of the log. -/
theorem statesAsOf_ok (ids : List ConceptId) (bound : AsOf) :
    ∃ states, ConceptStore.statesAsOf v p ids bound = .ok states ∧
      ∀ id, states.find? id = if id ∈ ids then v.contents.stateAsOf p bound id else none := by
  refine ⟨_, rfl, fun id => ?_⟩
  dsimp only
  generalize entries : List.filterMap (fun r : RevisionRecord => r.state.map (r.conceptId, ·))
    (ids.filterMap fun id => v.contents.latest? p id bound.includes) = l
  have member : ∀ e, e ∈ l ↔ e.1 ∈ ids ∧ v.contents.stateAsOf p bound e.1 = some e.2 := by
    rintro ⟨k, c⟩
    subst entries
    simp only [List.mem_filterMap, Option.map_eq_some_iff, Prod.mk.injEq, Contents.stateAsOf,
      Option.bind_eq_some_iff]
    constructor
    · rintro ⟨r, ⟨k', inside, found⟩, c', state, rfl, rfl⟩
      obtain rfl := (latest?_address found).2
      exact ⟨inside, r, found, state⟩
    · rintro ⟨inside, r, found, state⟩
      exact ⟨r, ⟨k, inside, found⟩, c, state, (latest?_address found).2, rfl⟩
  rw [SortedMap.find?_ofList (f := v.contents.stateAsOf p bound) fun e inside => ((member e).mp inside).2]
  by_cases asked : id ∈ ids
  · rw [if_pos asked]
    split
    · rfl
    · rename_i unlisted
      cases state : v.contents.stateAsOf p bound id with
      | none => rfl
      | some c =>
        exact absurd (List.mem_map_of_mem ((member (id, c)).mpr ⟨asked, state⟩)) unlisted
  · rw [if_neg asked, if_neg]
    intro listed
    obtain ⟨e, inside, rfl⟩ := List.mem_map.mp listed
    exact asked ((member e).mp inside).1

/-- A read of the past answers what is seen of the states in the log. -/
theorem asOf_eq (ids : List ConceptId) (bound : AsOf) :
    (⟨v, gate, actor, p, {}⟩ : Reader View).asOf ids bound =
      .ok (gate.seen actor p (v.contents.stateAsOf p bound) ids) := by
  obtain ⟨states, collected, known⟩ := statesAsOf_ok (v := v) (p := p) ids bound
  have container : ∀ c : Concept,
      (⟨v, gate, actor, p, {}⟩ : Reader View).containerAsOf states bound c =
        .ok (c.container.bind (v.contents.stateAsOf p bound)) := by
    intro c
    unfold containerAsOf
    cases c.container with
    | none => rfl
    | some id =>
      dsimp only
      cases listed : states.find? id with
      | some held =>
        rw [known] at listed
        split at listed
        · exact congrArg Except.ok listed.symm
        · cases listed
      | none =>
        obtain ⟨single, alone, here⟩ := statesAsOf_ok (v := v) (p := p) [id] bound
        dsimp only
        rw [alone]
        show Except.ok (single.find? id) = _
        rw [here, if_pos List.mem_cons_self]
        rfl
  have visible : ∀ id ∈ ids, (⟨v, gate, actor, p, {}⟩ : Reader View).visibleAsOf states bound id =
      .ok ((v.contents.stateAsOf p bound id).filter fun c => gate.canRead actor c p
        (gate.contextFor actor p (c.container.bind (v.contents.stateAsOf p bound)))) := by
    intro id asked
    unfold visibleAsOf
    rw [known, if_pos asked]
    cases v.contents.stateAsOf p bound id with
    | none => rfl
    | some c =>
      simp only [container, permits]
      rw [Option.filter_some]
      rfl
  simp only [asOf, collected, bind, Except.bind, mapM_eq_ok visible, pure, Except.pure]
  rw [Gate.seen, List.filterMap_map]
  rfl

end Reader

end ConceptLedger
