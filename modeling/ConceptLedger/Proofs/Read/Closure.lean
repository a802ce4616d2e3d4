import ConceptLedger.Proofs.Read.Descent
import ConceptLedger.Proofs.Read.Disclosure

/-!
Deep reads answer a closure. What a deep read answers is just what can be come by from the concepts
of the shallow read, through the containment lists of what has been come by, as far as the gate lets
the actor read it below something that he may read.
-/

namespace ConceptLedger.Reader

open Step

variable {σ : Type} [ConceptStore σ] {r : Reader σ} {journal journal' : Journal}
  {top : List Concept}

/-- What can be come by: the concepts at the top and, below each that is come by, the children of the
declared type that are answered where their container may be read. -/
inductive Reached (r : Reader σ) (top : List Concept) : Concept → Prop
  | top {c : Concept} (asked : c ∈ top) : Reached r top c
  | child {parent c : Concept} {q : Containment} (above : Reached r top parent)
      (declared : q ∈ parent.conceptType.containment) (listed : c.id ∈ parent.members q)
      (held : r.Holds c) (type : c.conceptType = q.target)
      (admitted : r.admits .unrestricted c = true) : Reached r top c

/-- A concept that a deep read can go below: its children can be put together and each can be looked
for. -/
def Legible (r : Reader σ) (c : Concept) : Prop :=
  (∃ pending, r.children c = .ok pending) ∧ ∀ q ∈ c.conceptType.containment, ∀ id ∈ c.members q,
    ∃ x, ConceptStore.find? r.view r.partition id = .ok x

/-- Pending children of something that is come by, which may be read where it may. -/
def Pending.Below (r : Reader σ) (top : List Concept) (next : Pending) : Prop :=
  next.security.containerReadable = true ∧ ∃ parent, Reached r top parent ∧
    ∃ q ∈ parent.conceptType.containment, next.target = q.target ∧ next.ids = parent.members q

/-- A deep read that has answered nothing but what can be come by. -/
structure Progress.Within (r : Reader σ) (top : List Concept) (s : Progress) : Prop where
  found : ∀ c ∈ s.found, Reached r top c
  pending : ∀ next ∈ s.pending, next.Below r top

/-- An identifier that can be looked for and is known, if a concept of a type is found under it that is
to be answered. -/
def Settled (r : Reader σ) (known : ConceptId → Prop) (t : ConceptType) (id : ConceptId) : Prop :=
  ∃ x, ConceptStore.find? r.view r.partition id = .ok x ∧
    ∀ c ∈ x, c.conceptType = t → r.admits .unrestricted c = true → known id

/-- Every child of an answered concept is settled or still pending. -/
structure Progress.Covering (r : Reader σ) (known : ConceptId → Prop) (s : Progress) : Prop where
  children : ∀ c ∈ s.found, ∃ pending, r.children c = .ok pending
  listed : ∀ c ∈ s.found, ∀ q ∈ c.conceptType.containment, ∀ id ∈ c.members q,
    r.Settled known q.target id ∨ ∃ next ∈ s.pending, next.target = q.target ∧ id ∈ next.ids
  pending : ∀ next ∈ s.pending, next.security.containerReadable = true

theorem mem_children {parent : Concept} {pending : List Pending} (held : r.children parent = .ok pending)
    {next : Pending} (member : next ∈ pending) :
    next.security.containerReadable = true ∧ ∃ q ∈ parent.conceptType.containment,
      next.target = q.target ∧ next.ids = parent.members q := by
  unfold children at held
  split at held
  · cases held
    cases member
  · obtain ⟨context, -, rfl⟩ := Except.map_ok held
    obtain ⟨q, declared, rfl⟩ := List.mem_map.mp (List.mem_filter.mp member).1
    exact ⟨rfl, q, declared, rfl, rfl⟩

theorem children_cover {parent : Concept} {pending : List Pending}
    (held : r.children parent = .ok pending) {q : Containment}
    (declared : q ∈ parent.conceptType.containment) {id : ConceptId} (listed : id ∈ parent.members q) :
    ∃ next ∈ pending, next.target = q.target ∧ id ∈ next.ids := by
  unfold children at held
  split at held
  · rename_i leaf
    rw [List.isEmpty_iff.mp leaf] at declared
    cases declared
  · obtain ⟨context, -, rfl⟩ := Except.map_ok held
    refine ⟨_, List.mem_filter.mpr ⟨List.mem_map_of_mem declared, ?_⟩, rfl, listed⟩
    cases ids : parent.members q with
    | nil =>
      rw [ids] at listed
      cases listed
    | cons first rest => rfl

omit [ConceptStore σ] in
theorem admits_below (monotone : r.gate.Monotone) {security : SecurityContext}
    (readable : security.containerReadable = true) (c : Concept) :
    r.admits security c = true ↔ r.admits .unrestricted c = true :=
  ⟨admits_mono monotone fun _ => rfl, admits_mono monotone fun _ => readable⟩

section Within

theorem accept_within {s s' : Progress} {c : Concept} (within : s.Within r top)
    (reached : Reached r top c) (run : r.accept s c = .ok s') : s'.Within r top := by
  rcases accept_ok run with ⟨-, rfl⟩ | ⟨-, pending, held, rfl⟩
  · exact within
  · refine ⟨fun x member => ?_, fun next member => ?_⟩
    · rcases List.mem_append.mp member with former | last
      · exact within.found x former
      · exact List.mem_singleton.mp last ▸ reached
    · rcases List.mem_append.mp member with former | last
      · exact within.pending next former
      · obtain ⟨readable, q, declared, target, ids⟩ := mem_children held last
        exact ⟨readable, c, reached, q, declared, target, ids⟩

theorem acceptAll_within {cs : List Concept} {s s' : Progress} (within : s.Within r top)
    (reached : ∀ c ∈ cs, Reached r top c) (run : cs.foldlM r.accept s = .ok s') : s'.Within r top := by
  induction cs generalizing s with
  | nil =>
    cases run
    exact within
  | cons c rest ih =>
    obtain ⟨first, others⟩ := List.forall_mem_cons.mp reached
    rw [List.foldlM_cons] at run
    obtain ⟨middle, accepted, later⟩ := Except.bind_ok run
    exact ih (accept_within within first accepted) others later

theorem start_within {start : Progress} (accepted : top.foldlM r.accept {} = .ok start) :
    start.Within r top := by
  have none : Progress.Within r top {} := ⟨nofun, nofun⟩
  exact acceptAll_within none (fun c => .top) accepted

variable (regular : r.Regular) (monotone : r.gate.Monotone)

include regular monotone

/-- What is answered of pending children can be come by. -/
theorem resolve_reached {next : Pending} {ids : List ConceptId} {here : List Concept}
    (below : next.Below r top) (some : ids ⊆ next.ids)
    (run : r.resolve next.target ids next.security journal = (.ok here, journal')) :
    ∀ c ∈ here, Reached r top c := by
  obtain ⟨readable, parent, above, q, declared, target, listed⟩ := below
  intro c member
  obtain ⟨asked, held, type, admitted⟩ := (regular.mem_resolve run).mp member
  exact .child above declared (listed ▸ some asked) held (type.trans target)
    ((admits_below monotone readable c).mp admitted)

theorem Turn.within {s s' : Progress} (within : s.Within r top) (turn : Turn r s s') :
    s'.Within r top := by
  obtain ⟨waiting, resolved, accepted⟩ := turn
  rename_i next pending here _ _
  obtain ⟨first, others⟩ := List.forall_mem_cons.mp (waiting ▸ within.pending)
  have rest : Progress.Within r top { s with pending } := ⟨within.found, others⟩
  exact acceptAll_within rest
    (resolve_reached regular monotone first (List.filter_subset_self _) resolved) accepted

end Within

section Covering

theorem acceptAll_has {cs : List Concept} {s s' : Progress} (run : cs.foldlM r.accept s = .ok s') :
    (∀ id, s.has id = true → s'.has id = true) ∧ ∀ c ∈ cs, s'.has c.id = true := by
  induction cs generalizing s with
  | nil =>
    cases run
    exact ⟨fun _ => id, nofun⟩
  | cons c rest ih =>
    rw [List.foldlM_cons] at run
    obtain ⟨middle, accepted, later⟩ := Except.bind_ok run
    obtain ⟨kept, added⟩ := ih later
    have here : (∀ id, s.has id = true → middle.has id = true) ∧ middle.has c.id = true := by
      rcases accept_ok accepted with ⟨known, rfl⟩ | ⟨-, pending, -, rfl⟩
      · exact ⟨fun _ => id, known⟩
      · simp only [Progress.has_iff, List.mem_append, List.mem_singleton]
        exact ⟨fun id ⟨x, former, own⟩ => ⟨x, .inl former, own⟩, c, .inr rfl, rfl⟩
    refine ⟨fun id former => kept id (here.1 id former), fun x member => ?_⟩
    rcases List.mem_cons.mp member with rfl | inRest
    · exact kept _ here.2
    · exact added x inRest

theorem Settled.imp {known known' : ConceptId → Prop} {t : ConceptType} {id : ConceptId}
    (settled : r.Settled known t id) (more : known id → known' id) : r.Settled known' t id := by
  obtain ⟨x, found, answered⟩ := settled
  exact ⟨x, found, fun c stored type admitted => more (answered c stored type admitted)⟩

variable {known : ConceptId → Prop}

theorem accept_covering {s s' : Progress} {c : Concept} (covering : s.Covering r known)
    (run : r.accept s c = .ok s') : s'.Covering r known := by
  rcases accept_ok run with ⟨-, rfl⟩ | ⟨-, pending, held, rfl⟩
  · exact covering
  · refine ⟨fun x member => ?_, fun x member q declared id listed => ?_, fun next member => ?_⟩
    · rcases List.mem_append.mp member with former | last
      · exact covering.children x former
      · exact ⟨pending, List.mem_singleton.mp last ▸ held⟩
    · rcases List.mem_append.mp member with former | last
      · rcases covering.listed x former q declared id listed with settled | ⟨next, waiting, asks⟩
        · exact .inl settled
        · exact .inr ⟨next, List.mem_append_left _ waiting, asks⟩
      · obtain rfl := List.mem_singleton.mp last
        obtain ⟨next, waiting, asks⟩ := children_cover held declared listed
        exact .inr ⟨next, List.mem_append_right _ waiting, asks⟩
    · rcases List.mem_append.mp member with former | last
      · exact covering.pending next former
      · exact (mem_children held last).1

theorem acceptAll_covering {cs : List Concept} {s s' : Progress} (covering : s.Covering r known)
    (run : cs.foldlM r.accept s = .ok s') : s'.Covering r known := by
  induction cs generalizing s with
  | nil =>
    cases run
    exact covering
  | cons c rest ih =>
    rw [List.foldlM_cons] at run
    obtain ⟨middle, accepted, later⟩ := Except.bind_ok run
    exact ih (accept_covering covering accepted) later

theorem start_covering {start : Progress} (accepted : top.foldlM r.accept {} = .ok start) :
    start.Covering r known := by
  have none : Progress.Covering r known {} := ⟨nofun, nofun, nofun⟩
  exact acceptAll_covering none accepted

variable (regular : r.Regular) (monotone : r.gate.Monotone)

include regular monotone

/-- A turn settles the children that it takes from those that are pending. -/
theorem Turn.covering {s s' : Progress} (sound : s.Sound r) (covering : s.Covering r (s.has · = true))
    (turn : Turn r s s') : s'.Covering r (s'.has · = true) := by
  obtain ⟨waiting, resolved, accepted⟩ := turn
  rename_i next pending here _ _
  obtain ⟨kept, added⟩ := acceptAll_has accepted
  obtain ⟨readable, others⟩ := List.forall_mem_cons.mp (waiting ▸ covering.pending)
  obtain ⟨all, loaded, -⟩ := resolve_ok resolved
  have settled : ∀ id ∈ next.ids, r.Settled (s'.has · = true) next.target id := by
    intro id asked
    by_cases old : s.has id = true
    · obtain ⟨c, answered, rfl⟩ := Progress.has_iff.mp old
      exact ⟨some c, sound.stored c answered, fun _ _ _ _ => kept _ old⟩
    · have fresh : id ∈ next.ids.filter fun id => !s.has id :=
        List.mem_filter.mpr ⟨asked, by simpa using old⟩
      obtain ⟨x, found⟩ := regular.legible_of_load loaded id fresh
      refine ⟨x, found, fun c stored type admitted => ?_⟩
      cases Option.mem_def.mp stored
      obtain rfl := regular.keyed id c found
      exact added c ((regular.mem_resolve resolved).mpr
        ⟨fresh, found, type, (admits_below monotone readable c).mpr admitted⟩)
  -- seen from the end of the turn, the list that is taken away is settled before it is worked off
  have rest : Progress.Covering r (s'.has · = true) { s with pending } := by
    refine ⟨covering.children, fun c answered q declared id listed => ?_, others⟩
    rcases covering.listed c answered q declared id listed with former | ⟨later, queued, target, asks⟩
    · exact .inl (former.imp (kept id))
    · rw [waiting] at queued
      rcases List.mem_cons.mp queued with rfl | inRest
      · exact .inl (target ▸ settled id asks)
      · exact .inr ⟨later, inRest, target, asks⟩
  exact acceptAll_covering rest accepted

end Covering

section Deep

variable (regular : r.Regular) (monotone : r.gate.Monotone)

include regular

theorem turns_sound {s s' : Progress} (sound : s.Sound r)
    (turns : Relation.ReflTransGen (Turn r) s s') : s'.Sound r := by
  induction turns with
  | refl => exact sound
  | tail _ turn ih => exact (turn.sound regular ih).1

include monotone

theorem turns_within {s s' : Progress} (within : s.Within r top)
    (turns : Relation.ReflTransGen (Turn r) s s') : s'.Within r top := by
  induction turns with
  | refl => exact within
  | tail _ turn ih => exact turn.within regular monotone ih

theorem turns_covering {s s' : Progress} (sound : s.Sound r) (covering : s.Covering r (s.has · = true))
    (turns : Relation.ReflTransGen (Turn r) s s') :
    s'.Covering r (s'.has · = true) ∧ ∀ id, s.has id = true → s'.has id = true := by
  induction turns with
  | refl => exact ⟨covering, fun _ => id⟩
  | @tail b c turns turn ih =>
    obtain ⟨covered, kept⟩ := ih
    refine ⟨turn.covering regular monotone (turns_sound regular sound turns) covered, fun id old => ?_⟩
    obtain ⟨_, _, accepted⟩ := turn
    exact (acceptAll_has accepted).1 id (kept id old)

/-- A deep read that succeeds has answered just what can be come by from the answer of the shallow read,
all of it legible. -/
theorem deep_reached {ids : List ConceptId} {security : Option SecurityContext} {found : List Concept}
    (run : r.deep ids security journal = (.ok found, journal')) :
    ∃ top journal₁, r.shallow ids security journal = (.ok top, journal₁) ∧
      (∀ c, c ∈ found ↔ Reached r top c) ∧ ∀ c ∈ found, r.Legible c := by
  obtain ⟨top, journal₁, start, s, shallow, accepted, turns, done, rfl⟩ := deep_ok regular run
  have stored := regular.shallow_holds shallow
  obtain ⟨sound, -⟩ := start_sound regular stored accepted
  have within := start_within accepted
  have covering : start.Covering r (start.has · = true) := start_covering accepted
  have sound' := turns_sound regular sound turns
  obtain ⟨covered, kept⟩ := turns_covering regular monotone sound covering turns
  have settled : ∀ c ∈ s.found, ∀ q ∈ c.conceptType.containment, ∀ id ∈ c.members q,
      r.Settled (s.has · = true) q.target id := by
    intro c answered q declared id listed
    refine (covered.listed c answered q declared id listed).resolve_right ?_
    rintro ⟨next, queued, -⟩
    rw [done] at queued
    cases queued
  have known : ∀ c, r.Holds c → s.has c.id = true → c ∈ s.found := by
    intro c held has
    obtain ⟨b, answered, same⟩ := Progress.has_iff.mp has
    have found := sound'.stored b answered
    rw [Holds, same, show _ = _ from held] at found
    cases found
    exact answered
  refine ⟨top, journal₁, shallow, fun c => ⟨(turns_within regular monotone within turns).found c,
    fun reached => ?_⟩, fun c answered => ⟨covered.children c answered, fun q declared id listed => ?_⟩⟩
  · induction reached with
    | top asked => exact known _ (stored _ asked) (kept _ ((acceptAll_has accepted).2 _ asked))
    | @child parent c q above declared listed held type admitted ih =>
      obtain ⟨x, found, has⟩ := settled parent ih q declared c.id listed
      rw [show _ = _ from held] at found
      cases found
      exact known c held (has c rfl type admitted)
  · obtain ⟨x, found, -⟩ := settled c answered q declared id listed
    exact ⟨x, found⟩

end Deep

section Legible

variable (legible : ∀ c, Reached r top c → r.Legible c)

include legible

theorem accept_legible {s : Progress} {c : Concept} (reached : Reached r top c) :
    ∃ s', r.accept s c = .ok s' := by
  obtain ⟨pending, held⟩ := (legible c reached).1
  unfold accept
  split
  · exact ⟨s, rfl⟩
  · rw [held]
    exact ⟨_, rfl⟩

theorem acceptAll_legible {cs : List Concept} {s : Progress} (reached : ∀ c ∈ cs, Reached r top c) :
    ∃ s', cs.foldlM r.accept s = .ok s' := by
  induction cs generalizing s with
  | nil => exact ⟨s, rfl⟩
  | cons c rest ih =>
    obtain ⟨first, others⟩ := List.forall_mem_cons.mp reached
    obtain ⟨middle, accepted⟩ := accept_legible legible (s := s) first
    rw [List.foldlM_cons, accepted]
    exact ih others

variable (regular : r.Regular) (monotone : r.gate.Monotone)

include regular monotone

theorem descend_legible {turns : Nat} {s : Progress} (within : s.Within r top) (journal : Journal) :
    ∃ found journal', r.descend turns s journal = (.ok found, journal') := by
  induction turns generalizing s journal with
  | zero => exact ⟨s.found, journal, rfl⟩
  | succ turns ih =>
    unfold descend
    cases waiting : s.pending with
    | nil => exact ⟨s.found, journal, rfl⟩
    | cons next pending =>
      have below : next.Below r top := within.pending next (waiting ▸ List.mem_cons_self)
      have fresh := List.filter_subset_self (p := fun id => !s.has id) next.ids
      have read : ∃ all, r.load (some next.target) (next.ids.filter fun id => !s.has id) = .ok all := by
        obtain ⟨-, parent, above, q, declared, -, listed⟩ := below
        refine regular.load_of_legible _ fun id asked => ?_
        exact (legible parent above).2 q declared id (listed ▸ fresh asked)
      obtain ⟨all, loaded⟩ := read
      have resolved : r.resolve next.target (next.ids.filter fun id => !s.has id) next.security journal =
          (.ok (all.filter (r.admits next.security)), journal ++ r.denials next.security all) :=
        bind_of_ok (lift_eq_ok_iff.mpr ⟨loaded, rfl⟩)
      have reached := resolve_reached regular monotone below fresh resolved
      obtain ⟨middle, accepted⟩ := acceptAll_legible legible (s := { s with pending }) reached
      have turn : Turn r s middle := .intro waiting resolved accepted
      obtain ⟨found, journal', later⟩ := ih (turn.within regular monotone within)
        (journal ++ r.denials next.security all)
      refine ⟨found, journal', ?_⟩
      dsimp only
      rw [bind_of_ok resolved, bind_of_ok (lift_eq_ok_iff.mpr ⟨accepted, rfl⟩), later]

/-- A deep read succeeds if the shallow one does and whatever can be come by from its answer is
legible. -/
theorem deep_legible {ids : List ConceptId} {security : Option SecurityContext} {journal₁ : Journal}
    (shallow : r.shallow ids security journal = (.ok top, journal₁)) :
    ∃ found journal', r.deep ids security journal = (.ok found, journal') := by
  obtain ⟨start, accepted⟩ := acceptAll_legible legible (s := {}) fun c => .top
  obtain ⟨found, journal', run⟩ :=
    descend_legible legible regular monotone (start_within accepted) journal₁
  refine ⟨found, journal', ?_⟩
  unfold deep
  rw [bind_of_ok shallow, bind_of_ok (lift_eq_ok_iff.mpr ⟨accepted, rfl⟩), run]

end Legible

section Total

variable (legible : ∀ id, ∃ x, ConceptStore.find? r.view r.partition id = .ok x)

include legible

theorem contextOf_legible (c : Concept) : ∃ security, r.contextOf c = .ok security := by
  unfold contextOf
  cases c.container with
  | none => exact ⟨_, rfl⟩
  | some id =>
    obtain ⟨x, found⟩ := legible id
    dsimp only
    rw [found]
    exact ⟨_, rfl⟩

theorem legible_everywhere (c : Concept) : r.Legible c := by
  refine ⟨?_, fun _ _ id _ => legible id⟩
  unfold children
  split
  · exact ⟨[], rfl⟩
  · obtain ⟨context, known⟩ := contextOf_legible legible c
    rw [known]
    exact ⟨_, rfl⟩

theorem siftEach_total (security : Option SecurityContext) (cs : List Concept) (journal : Journal) :
    ∃ found journal', r.siftEach security cs journal = (.ok found, journal') := by
  induction cs generalizing journal with
  | nil => exact ⟨[], journal, rfl⟩
  | cons c rest ih =>
    have context : ∃ s, security.elim (r.contextOf c) .ok = .ok s := by
      cases security with
      | some s => exact ⟨s, rfl⟩
      | none => exact contextOf_legible legible c
    obtain ⟨s, known⟩ := context
    obtain ⟨found, journal', later⟩ := ih (journal ++ r.denials s [c])
    have first : r.sift s [c] journal = (.ok ([c].filter (r.admits s)), journal ++ r.denials s [c]) := rfl
    refine ⟨[c].filter (r.admits s) ++ found, journal', ?_⟩
    refine bind_eq_ok_iff.mpr ⟨s, journal, lift_eq_ok_iff.mpr ⟨?_, rfl⟩,
      bind_eq_ok_iff.mpr ⟨_, _, first, bind_eq_ok_iff.mpr ⟨found, journal', later, rfl⟩⟩⟩
    cases security <;> exact known

/-- Where everything can be looked for, a deep read succeeds. -/
theorem deep_total (regular : r.Regular) (monotone : r.gate.Monotone) (ids : List ConceptId)
    (security : Option SecurityContext) (journal : Journal) :
    ∃ found journal', r.deep ids security journal = (.ok found, journal') := by
  obtain ⟨all, loaded⟩ : ∃ all, r.load none ids = .ok all :=
    regular.load_of_legible none fun id _ => legible id
  obtain ⟨top, journal₁, sifted⟩ := siftEach_total legible security all journal
  have shallow : r.shallow ids security journal = (.ok top, journal₁) := by
    unfold Reader.shallow
    rw [bind_of_ok (lift_eq_ok_iff.mpr ⟨loaded, rfl⟩), sifted]
  exact deep_legible (fun c _ => legible_everywhere legible c) regular monotone shallow

end Total

end ConceptLedger.Reader
