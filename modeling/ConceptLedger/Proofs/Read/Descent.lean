import ConceptLedger.Proofs.Read.Cached
import ConceptLedger.Proofs.Tables.Mirror
import ConceptLedger.Proofs.Tables.Rows
import Mathlib.Logic.Relation

/-!
Deep reads go to the end. Every concept that is answered is a stored one and is answered once, so
that the turns a deep read is given are never used up while children are pending: with more turns
it answers the same.
-/

namespace ConceptLedger

open Step

theorem ConceptType.containment_length (t : ConceptType) : t.containment.length ≤ 5 := by
  cases t <;> decide

theorem mem_of_mapM {α β : Type} {f : α → Except Failure β} {l : List α} {r : List β}
    (run : l.mapM f = .ok r) :
    (∀ b ∈ r, ∃ a ∈ l, f a = .ok b) ∧ ∀ a ∈ l, ∃ b ∈ r, f a = .ok b := by
  induction l generalizing r with
  | nil =>
    cases run
    exact ⟨nofun, nofun⟩
  | cons a rest ih =>
    rw [List.mapM_cons] at run
    obtain ⟨b, first, run⟩ := Except.bind_ok run
    obtain ⟨bs, others, run⟩ := Except.bind_ok run
    cases run
    obtain ⟨sources, values⟩ := ih others
    constructor
    · intro x member
      rcases List.mem_cons.mp member with rfl | later
      · exact ⟨a, List.mem_cons_self, first⟩
      · obtain ⟨source, inside, value⟩ := sources x later
        exact ⟨source, List.mem_cons_of_mem _ inside, value⟩
    · intro x member
      rcases List.mem_cons.mp member with rfl | later
      · exact ⟨b, List.mem_cons_self, first⟩
      · obtain ⟨value, inside, computed⟩ := values x later
        exact ⟨value, List.mem_cons_of_mem _ inside, computed⟩

theorem mapM_total {α β : Type} {f : α → Except Failure β} {l : List α}
    (each : ∀ a ∈ l, ∃ b, f a = .ok b) : ∃ r, l.mapM f = .ok r := by
  induction l with
  | nil => exact ⟨[], rfl⟩
  | cons a rest ih =>
    obtain ⟨first, others⟩ := List.forall_mem_cons.mp each
    obtain ⟨b, value⟩ := first
    obtain ⟨bs, values⟩ := ih others
    rw [List.mapM_cons, value, values]
    exact ⟨b :: bs, rfl⟩

theorem Tables.View.find?_eq (v : Tables.View) (p : Partition) (id : ConceptId) :
    ConceptStore.find? v p id = v.find p id := by
  show (Except.map _ ([id].mapM (v.find p))).map List.head? = _
  rw [List.mapM_cons]
  cases v.find p id with
  | error e => rfl
  | ok x => cases x <;> rfl

namespace Reader

/-- What is found alone under its identifier is picked if it is asked for. -/
theorem mem_pick {ids : List ConceptId} {found : List Concept} {c : Concept}
    (alone : ∀ b ∈ found, b.id = c.id → b = c) (inside : c ∈ found) (asked : c.id ∈ ids) :
    c ∈ pick ids found := by
  induction ids generalizing found with
  | nil => cases asked
  | cons id rest ih =>
    unfold pick
    by_cases same : id = c.id
    · have here : c ∈ found.filter fun b => b.id = id :=
        List.mem_filter.mpr ⟨inside, decide_eq_true same.symm⟩
      split
      · rename_i last picked
        obtain ⟨member, own⟩ := List.mem_filter.mp (List.mem_of_getLast? picked)
        rw [alone last member ((of_decide_eq_true own).trans same)]
        exact List.mem_cons_self
      · rename_i none
        rw [List.getLast?_eq_none_iff.mp none] at here
        cases here
    · have later : c.id ∈ rest := (List.mem_cons.mp asked).resolve_left (Ne.symm same)
      split
      · refine List.mem_cons_of_mem _ (ih (fun b member => ?_) ?_ later)
        · exact alone b (List.mem_filter.mp member).1
        · exact List.mem_filter.mpr ⟨inside, decide_eq_true (Ne.symm same)⟩
      · exact ih alone inside later

variable {σ : Type} [ConceptStore σ] {r : Reader σ} {journal journal' : Journal}

/-- A concept that is found where a reader reads. -/
def Holds (r : Reader σ) (c : Concept) : Prop :=
  ConceptStore.find? r.view r.partition c.id = .ok (some c)

/-- A reader who loads several concepts as he would find each of them, on a view whose extent bounds
what can be found. -/
structure Regular (r : Reader σ) : Prop where
  load : ∀ t ids, r.load t ids =
    (ids.mapM (ConceptStore.find? r.view r.partition)).map fun found =>
      pick ids ((found.filterMap id).filter fun c => t.all fun t => c.conceptType = t)
  keyed : ∀ id c, ConceptStore.find? r.view r.partition id = .ok (some c) → c.id = id
  few : ∀ ids : List ConceptId, ids.Nodup →
    (∀ id ∈ ids, ∃ c, ConceptStore.find? r.view r.partition id = .ok (some c)) →
      ids.length ≤ ConceptStore.extent r.view

namespace Regular

variable (regular : r.Regular)

include regular

/-- What is loaded are the concepts of the type that are found under the given identifiers. -/
theorem mem_load {t : Option ConceptType} {ids : List ConceptId} {found : List Concept}
    (loaded : r.load t ids = .ok found) {c : Concept} :
    c ∈ found ↔ c.id ∈ ids ∧ r.Holds c ∧ ∀ kind ∈ t, c.conceptType = kind := by
  rw [regular.load] at loaded
  obtain ⟨all, read, rfl⟩ := Except.map_ok loaded
  obtain ⟨sources, values⟩ := mem_of_mapM read
  have kinds : ∀ c : Concept, (t.all fun t => c.conceptType = t) = true ↔
      ∀ kind ∈ t, c.conceptType = kind := by
    intro c
    cases t <;> simp
  have held : ∀ b ∈ (all.filterMap id).filter (fun c => t.all fun t => c.conceptType = t),
      b.id ∈ ids ∧ r.Holds b ∧ ∀ kind ∈ t, b.conceptType = kind := by
    intro b member
    obtain ⟨inside, kind⟩ := List.mem_filter.mp member
    obtain ⟨x, answered, rfl⟩ := List.mem_filterMap.mp inside
    obtain ⟨source, asked, found⟩ := sources _ answered
    obtain rfl := regular.keyed source b found
    exact ⟨asked, found, (kinds b).mp kind⟩
  constructor
  · exact fun member => held c (pick_subset _ _ c member)
  · rintro ⟨asked, stored, kind⟩
    refine mem_pick (fun b member same => ?_) (List.mem_filter.mpr ⟨?_, (kinds c).mpr kind⟩) asked
    · have found := (held b member).2.1
      rw [Holds, same, show _ = _ from stored] at found
      exact (Option.some.inj (Except.ok.inj found)).symm
    · obtain ⟨x, answered, found⟩ := values c.id asked
      rw [show _ = _ from stored] at found
      exact List.mem_filterMap.mpr ⟨x, answered, (Except.ok.inj found).symm⟩

theorem legible_of_load {t : Option ConceptType} {ids : List ConceptId} {found : List Concept}
    (loaded : r.load t ids = .ok found) :
    ∀ id ∈ ids, ∃ x, ConceptStore.find? r.view r.partition id = .ok x := by
  rw [regular.load] at loaded
  obtain ⟨all, read, -⟩ := Except.map_ok loaded
  intro id asked
  obtain ⟨x, -, found⟩ := (mem_of_mapM read).2 id asked
  exact ⟨x, found⟩

theorem load_of_legible (t : Option ConceptType) {ids : List ConceptId}
    (legible : ∀ id ∈ ids, ∃ x, ConceptStore.find? r.view r.partition id = .ok x) :
    ∃ found, r.load t ids = .ok found := by
  obtain ⟨all, read⟩ := mapM_total legible
  rw [regular.load, read]
  exact ⟨_, rfl⟩

end Regular

theorem resolve_ok {t : ConceptType} {ids : List ConceptId} {security : SecurityContext}
    {here : List Concept} (run : r.resolve t ids security journal = (.ok here, journal')) :
    ∃ all, r.load (some t) ids = .ok all ∧ here = all.filter (r.admits security) := by
  obtain ⟨all, loaded, run⟩ := lift_bind_eq_ok_iff.mp run
  cases run
  exact ⟨all, loaded, rfl⟩

theorem accept_ok {s s' : Progress} {c : Concept} (run : r.accept s c = .ok s') :
    s.has c.id = true ∧ s' = s ∨
    s.has c.id = false ∧ ∃ pending, r.children c = .ok pending ∧
      s' = ⟨s.found ++ [c], s.pending ++ pending⟩ := by
  unfold accept at run
  split at run
  · rename_i known
    cases run
    exact .inl ⟨known, rfl⟩
  · rename_i new
    obtain ⟨pending, held, rfl⟩ := Except.map_ok run
    exact .inr ⟨by simpa using new, pending, held, rfl⟩

theorem Progress.has_iff {s : Progress} {id : ConceptId} :
    s.has id = true ↔ ∃ c ∈ s.found, c.id = id := by
  simp [Progress.has]

/-- A deep read that has answered stored concepts only, each one once. -/
structure Progress.Sound (r : Reader σ) (s : Progress) : Prop where
  once : (s.found.map (·.id)).Nodup
  stored : ∀ c ∈ s.found, r.Holds c

/-- The turns that a deep read may still take: one for each pending list of children, and five
for each concept that can be found and has not been answered. -/
def Progress.ahead (r : Reader σ) (s : Progress) : Nat :=
  s.pending.length + 5 * (ConceptStore.extent r.view - s.found.length)

theorem Progress.Sound.length_le (regular : r.Regular) {s : Progress} (sound : s.Sound r) :
    s.found.length ≤ ConceptStore.extent r.view := by
  have few := regular.few _ sound.once fun id member => by
    obtain ⟨c, answered, rfl⟩ := List.mem_map.mp member
    exact ⟨c, sound.stored c answered⟩
  rwa [List.length_map] at few

theorem children_length {c : Concept} {pending : List Pending} (held : r.children c = .ok pending) :
    pending.length ≤ 5 := by
  unfold children at held
  split at held
  · cases held
    exact Nat.zero_le 5
  · obtain ⟨security, -, rfl⟩ := Except.map_ok held
    refine Nat.le_trans (List.length_filter_le _ _) ?_
    rw [List.length_map]
    exact c.conceptType.containment_length

theorem accept_sound (regular : r.Regular) {s s' : Progress} {c : Concept} (sound : s.Sound r)
    (stored : r.Holds c) (run : r.accept s c = .ok s') : s'.Sound r ∧ s'.ahead r ≤ s.ahead r := by
  rcases accept_ok run with ⟨-, rfl⟩ | ⟨new, pending, held, rfl⟩
  · exact ⟨sound, Nat.le_refl _⟩
  · have apart : ∀ b ∈ s.found, b.id ≠ c.id := by
      simpa [Progress.has] using new
    have grown : Progress.Sound r ⟨s.found ++ [c], s.pending ++ pending⟩ := by
      refine ⟨?_, fun b member => ?_⟩
      · rw [List.map_append, List.nodup_append]
        refine ⟨sound.once, List.nodup_singleton _, fun a former b last => ?_⟩
        obtain ⟨d, answered, rfl⟩ := List.mem_map.mp former
        rw [List.mem_singleton.mp last]
        exact apart d answered
      · rcases List.mem_append.mp member with former | last
        · exact sound.stored b former
        · exact List.mem_singleton.mp last ▸ stored
    -- a newly found concept leaves one fewer to be found, which pays for the lists that it adds
    have room := grown.length_le regular
    have few := children_length held
    refine ⟨grown, ?_⟩
    simp only [Progress.ahead, List.length_append, List.length_singleton] at room ⊢
    omega

theorem acceptAll_sound (regular : r.Regular) {cs : List Concept} {s s' : Progress}
    (sound : s.Sound r) (stored : ∀ c ∈ cs, r.Holds c) (run : cs.foldlM r.accept s = .ok s') :
    s'.Sound r ∧ s'.ahead r ≤ s.ahead r := by
  induction cs generalizing s with
  | nil =>
    cases run
    exact ⟨sound, Nat.le_refl _⟩
  | cons c rest ih =>
    obtain ⟨first, others⟩ := List.forall_mem_cons.mp stored
    rw [List.foldlM_cons] at run
    obtain ⟨middle, accepted, later⟩ := Except.bind_ok run
    obtain ⟨sound', below⟩ := accept_sound regular sound first accepted
    obtain ⟨sound'', below'⟩ := ih sound' others later
    exact ⟨sound'', Nat.le_trans below' below⟩

/-- One turn of a deep read: the first pending children are answered, as far as they are new and may
be read, and their own children become pending. -/
inductive Turn (r : Reader σ) : Progress → Progress → Prop
  | intro {s s' : Progress} {next : Pending} {pending : List Pending} {here : List Concept}
      {journal journal' : Journal} (waiting : s.pending = next :: pending)
      (resolved : r.resolve next.target (next.ids.filter fun id => !s.has id) next.security journal =
        (.ok here, journal'))
      (accepted : here.foldlM r.accept { s with pending } = .ok s') : Turn r s s'

theorem Regular.mem_resolve (regular : r.Regular) {t : ConceptType} {ids : List ConceptId}
    {security : SecurityContext} {here : List Concept}
    (run : r.resolve t ids security journal = (.ok here, journal')) {c : Concept} :
    c ∈ here ↔ c.id ∈ ids ∧ r.Holds c ∧ c.conceptType = t ∧ r.admits security c = true := by
  obtain ⟨all, loaded, rfl⟩ := resolve_ok run
  rw [List.mem_filter, regular.mem_load loaded]
  simp [and_assoc]

theorem Turn.sound (regular : r.Regular) {s s' : Progress} (sound : s.Sound r) (turn : Turn r s s') :
    s'.Sound r ∧ s'.ahead r < s.ahead r := by
  obtain ⟨waiting, resolved, accepted⟩ := turn
  rename_i next pending here _ _
  have sound' : Progress.Sound r { s with pending } := ⟨sound.once, sound.stored⟩
  obtain ⟨grown, below⟩ := acceptAll_sound regular sound'
    (fun c member => ((regular.mem_resolve resolved).mp member).2.1) accepted
  refine ⟨grown, Nat.lt_of_le_of_lt below ?_⟩
  simp only [Progress.ahead, waiting, List.length_cons]
  omega

/-- With as many turns as there can be ahead, a descent goes on until nothing is pending. -/
theorem descend_ends (regular : r.Regular) {turns : Nat} {s : Progress} {found : List Concept}
    (sound : s.Sound r) (enough : s.ahead r ≤ turns)
    (run : r.descend turns s journal = (.ok found, journal')) :
    ∃ s', Relation.ReflTransGen (Turn r) s s' ∧ s'.pending = [] ∧ s'.found = found := by
  -- every turn leaves fewer turns ahead, so that the last one is not taken away by the bound
  induction turns generalizing s journal with
  | zero =>
    obtain ⟨rfl, -⟩ := pure_eq_ok_iff.mp run
    have done : s.pending = [] :=
      List.length_eq_zero_iff.mp (by unfold Progress.ahead at enough; omega)
    exact ⟨s, .refl, done, rfl⟩
  | succ turns ih =>
    unfold descend at run
    cases waiting : s.pending with
    | nil =>
      rw [waiting] at run
      obtain ⟨rfl, -⟩ := pure_eq_ok_iff.mp run
      exact ⟨s, .refl, waiting, rfl⟩
    | cons next pending =>
      rw [waiting] at run
      obtain ⟨here, _, resolved, run⟩ := bind_eq_ok_iff.mp run
      obtain ⟨middle, accepted, run⟩ := lift_bind_eq_ok_iff.mp run
      have turn : Turn r s middle := .intro waiting resolved accepted
      obtain ⟨sound', fewer⟩ := turn.sound regular sound
      obtain ⟨s', later, done, answered⟩ := ih sound' (by omega) run
      exact ⟨s', .head turn later, done, answered⟩

/-- With as many turns as there can be ahead, a descent does not depend on how many more it has. -/
theorem descend_enough (regular : r.Regular) {turns : Nat} {s : Progress} (sound : s.Sound r)
    (enough : s.ahead r ≤ turns) (more : Nat) (journal : Journal) :
    r.descend (turns + more) s journal = r.descend turns s journal := by
  induction turns generalizing s journal with
  | zero =>
    have done : s.pending = [] :=
      List.length_eq_zero_iff.mp (by unfold Progress.ahead at enough; omega)
    cases more with
    | zero => rfl
    | succ more => simp only [descend, done]
  | succ turns ih =>
    rw [Nat.add_right_comm]
    unfold descend
    cases waiting : s.pending with
    | nil => rfl
    | cons next pending =>
      dsimp only
      rcases resolved : r.resolve next.target (next.ids.filter fun id => !s.has id) next.security
        journal with ⟨_ | here, journal'⟩
      · rw [bind_of_error resolved, bind_of_error resolved]
      · rw [bind_of_ok resolved, bind_of_ok resolved]
        cases accepted : here.foldlM r.accept { s with pending } with
        | error e => rfl
        | ok middle =>
          obtain ⟨sound', fewer⟩ := (Turn.intro waiting resolved accepted).sound regular sound
          exact ih sound' (by omega) journal'

theorem Regular.shallow_holds (regular : r.Regular) {security : Option SecurityContext}
    {ids : List ConceptId} {found : List Concept}
    (run : r.shallow ids security journal = (.ok found, journal')) : ∀ c ∈ found, r.Holds c := by
  obtain ⟨all, loaded, run⟩ := lift_bind_eq_ok_iff.mp run
  exact fun c member => ((regular.mem_load loaded).mp (siftEach_subset run c member)).2.1

/-- A deep read starts sound, with no more turns ahead than it is given. -/
theorem start_sound (regular : r.Regular) {top : List Concept} {start : Progress}
    (stored : ∀ c ∈ top, r.Holds c) (accepted : top.foldlM r.accept {} = .ok start) :
    start.Sound r ∧ start.ahead r ≤ 5 * ConceptStore.extent r.view + 1 := by
  have none : Progress.Sound r {} := ⟨List.nodup_nil, nofun⟩
  obtain ⟨sound, below⟩ := acceptAll_sound regular none stored accepted
  refine ⟨sound, Nat.le_trans below ?_⟩
  simp only [Progress.ahead, List.length_nil]
  omega

/-- A deep read answers what a run of turns ends with that starts at a shallow read. -/
theorem deep_ok (regular : r.Regular) {security : Option SecurityContext} {ids : List ConceptId}
    {found : List Concept} (run : r.deep ids security journal = (.ok found, journal')) :
    ∃ top journal₁ start s, r.shallow ids security journal = (.ok top, journal₁) ∧
      top.foldlM r.accept {} = .ok start ∧ Relation.ReflTransGen (Turn r) start s ∧
      s.pending = [] ∧ s.found = found := by
  obtain ⟨top, journal₁, shallow, run⟩ := bind_eq_ok_iff.mp run
  obtain ⟨start, accepted, run⟩ := lift_bind_eq_ok_iff.mp run
  obtain ⟨sound, enough⟩ := start_sound regular (regular.shallow_holds shallow) accepted
  obtain ⟨s, turns, done, answered⟩ := descend_ends regular sound enough run
  exact ⟨top, journal₁, start, s, shallow, accepted, turns, done, answered⟩

/-- A deep read answers all that it would answer with more turns. -/
theorem deep_complete (regular : r.Regular) (ids : List ConceptId) (security : Option SecurityContext)
    (more : Nat) :
    (do
      let top ← r.shallow ids security
      let start ← Step.lift (top.foldlM r.accept {})
      r.descend (5 * ConceptStore.extent r.view + 1 + more) start) = r.deep ids security := by
  funext journal
  unfold deep
  rcases shallow : r.shallow ids security journal with ⟨_ | top, journal₁⟩
  · rw [bind_of_error shallow, bind_of_error shallow]
  · rw [bind_of_ok shallow, bind_of_ok shallow]
    cases accepted : top.foldlM r.accept {} with
    | error e => rfl
    | ok start =>
      obtain ⟨sound, enough⟩ := start_sound regular (regular.shallow_holds shallow) accepted
      exact descend_enough regular sound enough more journal₁

section Stores

/-- Everything that is found under different identifiers has an entry of its own in a map. -/
theorem length_le_size {α β : Type} [Ord α] [Std.TransOrd α] [Std.LawfulEqOrd α]
    {m : SortedMap α β} {key : ConceptId → α} (apart : Function.Injective key) {ids : List ConceptId}
    (nodup : ids.Nodup) (there : ∀ id ∈ ids, (m.find? (key id)).isSome) : ids.length ≤ m.size := by
  have once : (ids.map key).Nodup := nodup.map apart
  have inside : ids.map key ⊆ m.keys := by
    intro k member
    obtain ⟨id, asked, rfl⟩ := List.mem_map.mp member
    obtain ⟨v, found⟩ := Option.isSome_iff_exists.mp (there id asked)
    exact List.mem_map.mpr ⟨_, SortedMap.find?_eq_some_iff.mp found, rfl⟩
  have few := (List.subperm_of_subset once inside).length_le
  rwa [List.length_map, SortedMap.keys, List.length_map] at few

/-- In memory concepts are loaded as they are found, in either mode if the log ends with them. -/
theorem regular_memory {r : Reader Memory.View} (keyed : r.view.contents.Keyed)
    (fresh : r.options.mode = .cached → r.view.contents.Logged) : r.Regular := by
  have found : ∀ id, ConceptStore.find? r.view r.partition id =
      .ok (r.view.contents.find? r.partition id) := Memory.View.find?_eq _ _
  refine ⟨fun t ids => ?_, fun id c stored => ?_, fun ids nodup there => ?_⟩
  · rw [mapM_eq_ok fun id _ => found id]
    simp only [Except.map, List.filterMap_map, Function.id_comp]
    cases mode : r.options.mode with
    | cached => exact load_eq (fresh mode) t ids
    | live =>
      unfold load
      rw [mode]
      cases ids <;> rfl
  · rw [found] at stored
    exact keyed ⟨r.partition, id⟩ c (Except.ok.inj stored)
  · have apart : Function.Injective fun id : ConceptId => (⟨r.partition, id⟩ : Address) :=
      fun a b same => congrArg Address.id same
    refine Nat.le_trans (length_le_size apart nodup fun id asked => ?_) (Nat.le_add_right _ _)
    obtain ⟨c, stored⟩ := there id asked
    rw [found] at stored
    exact Option.isSome_of_eq_some (Except.ok.inj stored)

/-- Live reads on tables load concepts as they are found. -/
theorem regular_tables {r : Reader Tables.View} (live : r.options.mode = .live) : r.Regular := by
  have found : ∀ id, ConceptStore.find? r.view r.partition id = r.view.find r.partition id :=
    Tables.View.find?_eq _ _
  refine ⟨fun t ids => ?_, fun id c stored => ?_, fun ids nodup there => ?_⟩
  · rw [show ConceptStore.find? r.view r.partition = r.view.find r.partition from funext found]
    unfold load
    rw [live]
    cases ids with
    | nil => rfl
    | cons id rest =>
      show (Except.map _ (List.mapM (r.view.find r.partition) (id :: rest))).map _ = Except.map _ _
      generalize (id :: rest).mapM (r.view.find r.partition) = all
      cases all <;> rfl
  · rw [found] at stored
    unfold Tables.View.find at stored
    cases row : r.view.contents.concepts.find? (Tables.keyOf r.partition id) with
    | none =>
      rw [row] at stored
      cases stored
    | some row' =>
      rw [row] at stored
      obtain ⟨c', decoded, same⟩ := Except.bind_ok stored
      cases same
      exact Tables.decodeConcept_id decoded
  · have apart : Function.Injective (Tables.keyOf r.partition) := by
      intro a b same
      rw [Tables.keyOf, Tables.keyOf, Tables.ConceptKey.mk.injEq] at same
      exact Uuid.text_embeds.eq_iff.mp same.2
    refine Nat.le_trans (length_le_size apart nodup fun id asked => ?_) (Nat.le_add_right _ _)
    obtain ⟨c, stored⟩ := there id asked
    rw [found] at stored
    unfold Tables.View.find at stored
    cases row : r.view.contents.concepts.find? (Tables.keyOf r.partition id) with
    | none =>
      rw [row] at stored
      cases stored
    | some row' => rfl

end Stores

end Reader

end ConceptLedger
