import ConceptLedger.Proofs.Read.Closure
import ConceptLedger.Proofs.Read.Concealment

/-!
Exclusions only narrow what is read. Where concepts shut out more actors and domains, contexts allow
less, shallow reads answer a part of what they would answer, in the same order, and deep reads come
by less.
-/

namespace ConceptLedger

open Step

/-- An override that shuts out all that another one shuts out. -/
structure AccessOverride.Within (o o' : AccessOverride) : Prop where
  actors : ∀ a, o.excludedActors.has a = true → o'.excludedActors.has a = true
  domains : ∀ a, o.excludedDomains.has a = true → o'.excludedDomains.has a = true

theorem AccessOverride.Within.excludes {o o' : AccessOverride} (within : o.Within o') {actor : Uuid}
    {domain : Option Uuid} (out : o.excludes actor domain = true) : o'.excludes actor domain = true := by
  unfold AccessOverride.excludes at out ⊢
  rcases Bool.or_eq_true_iff.mp out with byActor | byDomain
  · rw [within.actors actor byActor, Bool.true_or]
  · cases domain with
    | none => cases byDomain
    | some a => rw [Option.any_some, within.domains a byDomain, Bool.or_true]

/-- Two states of a concept that are equal except that the second shuts out at least as many. -/
structure Narrowed (c c' : Concept) : Prop where
  same : c' = { c with accessOverride := c'.accessOverride }
  within : c.accessOverride.Within c'.accessOverride

theorem Narrowed.refl (c : Concept) : Narrowed c c := ⟨rfl, fun _ => id, fun _ => id⟩

namespace Narrowed

variable {c c' : Concept} (narrowed : Narrowed c c')

include narrowed

theorem id_eq : c'.id = c.id := by
  rw [narrowed.same]

theorem type_eq : c'.conceptType = c.conceptType := by
  rw [narrowed.same]

theorem container_eq : c'.container = c.container := by
  rw [narrowed.same]

theorem properties_eq : c'.properties = c.properties := by
  rw [narrowed.same]

theorem members_eq (q : Containment) : c'.members q = c.members q := by
  simp only [Concept.members, Concept.entries, Concept.property?, narrowed.properties_eq]

theorem isSoftDeleted_eq : c'.isSoftDeleted = c.isSoftDeleted := by
  simp only [Concept.isSoftDeleted, Concept.property?, narrowed.properties_eq]

/-- Who may read the narrower state may read the other one where the container is at least as open. -/
theorem canRead {d : ScopeDefaults} {actor : Actor} {p : Partition} {s s' : SecurityContext}
    (more : s'.containerReadable = true → s.containerReadable = true)
    (allowed : d.gate.canRead actor c' p s' = true) : d.gate.canRead actor c p s = true := by
  refine d.gate_monotone actor c p s' s more ?_
  obtain ⟨admitted, right⟩ := Bool.and_eq_true_iff.mp allowed
  rw [narrowed.type_eq] at right
  refine Bool.and_eq_true_iff.mpr ⟨?_, right⟩
  obtain ⟨outside, part⟩ := Bool.and_eq_true_iff.mp admitted
  refine Bool.and_eq_true_iff.mpr ⟨?_, part⟩
  cases out : c.accessOverride.excludes actor.id actor.activeDomain with
  | false => rfl
  | true =>
    rw [narrowed.within.excludes out] at outside
    cases outside

end Narrowed

/-- Concepts of one answer that are states of concepts of another one, in the same order. -/
abbrev Thinner (found found' : List Concept) : Prop :=
  List.SublistForall₂ (fun c' c => Narrowed c c') found' found

namespace Thinner

variable {found found' : List Concept} (thinner : Thinner found found')

include thinner

theorem sublist : (found'.map (·.id)).Sublist (found.map (·.id)) := by
  induction thinner with
  | nil => exact List.nil_sublist _
  | cons narrowed _ ih =>
    rw [List.map_cons, List.map_cons, narrowed.id_eq]
    exact ih.cons_cons _
  | cons_right _ ih => exact ih.cons _

theorem exists_of_mem {c' : Concept} (member : c' ∈ found') : ∃ c ∈ found, Narrowed c c' := by
  induction thinner with
  | nil => cases member
  | cons narrowed _ ih =>
    rcases List.mem_cons.mp member with rfl | later
    · exact ⟨_, List.mem_cons_self, narrowed⟩
    · obtain ⟨c, inside, related⟩ := ih later
      exact ⟨c, List.mem_cons_of_mem _ inside, related⟩
  | cons_right _ ih =>
    obtain ⟨c, inside, related⟩ := ih member
    exact ⟨c, List.mem_cons_of_mem _ inside, related⟩

end Thinner

namespace Reader

variable {σ τ : Type} [ConceptStore σ] [ConceptStore τ] {d : ScopeDefaults} {r : Reader σ} {w : τ}

/-- A view on which every concept that a reader finds shuts out at least as many. -/
def Narrows (r : Reader σ) (w : τ) : Prop :=
  ∀ id, Agreeing (Option.Rel Narrowed) (ConceptStore.find? r.view r.partition id)
    (ConceptStore.find? w r.partition id)

/-- What is answered of a list is what is answered of its first concept, followed by the others. -/
theorem siftEach_cons_result (c : Concept) (rest : List Concept) (journal : Journal) :
    (r.siftEach none (c :: rest) journal).1 = (r.contextOf c).bind fun s =>
      (r.siftEach none rest (journal ++ r.denials s [c])).1.map ([c].filter (r.admits s) ++ ·) := by
  rw [siftEach]
  cases context : r.contextOf c with
  | error e => rfl
  | ok s =>
    have first : r.sift s [c] journal = (.ok ([c].filter (r.admits s)), journal ++ r.denials s [c]) := rfl
    rw [bind_of_ok (lift_eq_ok_iff.mpr ⟨rfl, rfl⟩), bind_of_ok first]
    rcases later : r.siftEach none rest (journal ++ r.denials s [c]) with ⟨_ | found, journal'⟩
    · rw [bind_of_error later]
      show _ = ((r.siftEach none rest _).1.map _ : Except Failure (List Concept))
      rw [later]
      rfl
    · rw [bind_of_ok later]
      show _ = ((r.siftEach none rest _).1.map _ : Except Failure (List Concept))
      rw [later]
      rfl

section Shallow

variable (role : r.gate = d.gate) (narrows : r.Narrows w)

include role narrows

theorem contextOf_narrowed {c c' : Concept} (narrowed : Narrowed c c') :
    Agreeing (fun s s' : SecurityContext => s'.containerReadable = true → s.containerReadable = true)
      (r.contextOf c) ((r.onto w).contextOf c') := by
  unfold contextOf
  rw [narrowed.container_eq]
  cases c.container with
  | none => exact .ok fun open' => open'
  | some id =>
    refine (narrows id).map fun x x' related => ?_
    cases related with
    | none => exact fun open' => open'
    | some first =>
      show r.gate.canRead r.actor _ r.partition .unrestricted = true →
        r.gate.canRead r.actor _ r.partition .unrestricted = true
      rw [role]
      exact first.canRead fun open' => open'

omit [ConceptStore σ] [ConceptStore τ] narrows in
theorem admits_narrowed {c c' : Concept} (narrowed : Narrowed c c') {s s' : SecurityContext}
    (more : s'.containerReadable = true → s.containerReadable = true)
    (admitted : (r.onto w).admits s' c' = true) : r.admits s c = true := by
  obtain ⟨kept, allowed⟩ := Bool.and_eq_true_iff.mp admitted
  refine Bool.and_eq_true_iff.mpr ⟨?_, ?_⟩
  · rw [passesOver, ← narrowed.isSoftDeleted_eq]
    exact kept
  · rw [permits, role]
    refine narrowed.canRead more ?_
    rw [← role]
    exact allowed

omit [ConceptStore σ] [ConceptStore τ] narrows in
theorem filter_narrowed {c c' : Concept} (narrowed : Narrowed c c') {s s' : SecurityContext}
    (more : s'.containerReadable = true → s.containerReadable = true) {later later' : List Concept}
    (thinner : Thinner later later') :
    Thinner ([c].filter (r.admits s) ++ later) ([c'].filter ((r.onto w).admits s') ++ later') := by
  rw [List.filter_singleton, List.filter_singleton]
  cases narrow : (r.onto w).admits s' c' with
  | true =>
    rw [admits_narrowed role narrowed more narrow]
    exact .cons narrowed thinner
  | false =>
    cases r.admits s c with
    | true => exact .cons_right thinner
    | false => exact thinner

/-- Whatever is reported, less is answered of narrower states. -/
theorem siftEach_narrowed {cs cs' : List Concept} (related : List.Forall₂ Narrowed cs cs')
    (journal journal' : Journal) :
    Agreeing Thinner (r.siftEach none cs journal).1 ((r.onto w).siftEach none cs' journal').1 := by
  induction related generalizing journal journal' with
  | nil => exact .ok .nil
  | @cons c c' rest rest' first _ ih =>
    have context := contextOf_narrowed role narrows first
    rw [siftEach_cons_result, siftEach_cons_result]
    generalize r.contextOf c = x at context
    generalize (r.onto w).contextOf c' = y at context
    cases context with
    | error e => exact .error e
    | ok more => exact (ih _ _).map fun found found' thinner => filter_narrowed role first more thinner

variable (regular : r.Regular) (regular' : (r.onto w).Regular)

include regular regular'

omit role in
theorem load_narrowed (t : Option ConceptType) (ids : List ConceptId) :
    Agreeing (List.Forall₂ Narrowed) (r.load t ids) ((r.onto w).load t ids) := by
  rw [regular.load, regular'.load]
  refine (Agreeing.mapM narrows ids).map fun found found' related => ?_
  refine pick_related (fun _ _ => Narrowed.id_eq) ids (List.rel_filter (fun c c' narrowed => ?_)
    (List.rel_filterMap (fun x y same => same) related))
  dsimp only
  rw [narrowed.type_eq]

/-- A shallow read answers a part of what it would answer, or fails likewise. -/
theorem shallow_narrowed (ids : List ConceptId) (journal journal' : Journal) :
    Agreeing Thinner (r.shallow ids none journal).1 ((r.onto w).shallow ids none journal').1 := by
  have loaded := load_narrowed narrows regular regular' none ids
  unfold shallow
  generalize r.load none ids = x at loaded
  generalize (r.onto w).load none ids = y at loaded
  cases loaded with
  | error e => exact .error e
  | ok related => exact siftEach_narrowed role narrows related journal journal'

omit regular regular' in
/-- Whatever can be come by is a narrower state of something that could be come by. -/
theorem reached_narrowed {top top' : List Concept} (thinner : Thinner top top') {c' : Concept}
    (reached : Reached (r.onto w) top' c') : ∃ c, Reached r top c ∧ Narrowed c c' := by
  induction reached with
  | top asked =>
    obtain ⟨c, inside, narrowed⟩ := thinner.exists_of_mem asked
    exact ⟨c, .top inside, narrowed⟩
  | @child parent' c' q _ declared listed held type admitted ih =>
    obtain ⟨parent, above, narrowed⟩ := ih
    have found := narrows c'.id
    rw [show ConceptStore.find? w r.partition c'.id = _ from held] at found
    generalize stored : ConceptStore.find? r.view r.partition c'.id = x at found
    cases found with
    | ok related =>
      cases related with
      | @some c _ child =>
        have stored : r.Holds c := by
          rw [Holds, ← child.id_eq]
          exact stored
        refine ⟨c, .child above (narrowed.type_eq ▸ declared) ?_ stored (child.type_eq.symm.trans type)
          (admits_narrowed role child (fun open' => open') admitted), child⟩
        rw [← child.id_eq, ← narrowed.members_eq]
        exact listed

omit regular regular' in
theorem legible_narrowed {c c' : Concept} (narrowed : Narrowed c c') (legible : r.Legible c) :
    (r.onto w).Legible c' := by
  obtain ⟨⟨pending, held⟩, listed⟩ := legible
  constructor
  · unfold children at held ⊢
    rw [narrowed.type_eq]
    split at held
    · rename_i leaf
      rw [if_pos leaf]
      exact ⟨[], rfl⟩
    · rename_i parent
      obtain ⟨security, context, -⟩ := Except.map_ok held
      have agree := contextOf_narrowed role narrows narrowed
      rw [context] at agree
      generalize (r.onto w).contextOf c' = y at agree
      cases agree with
      | ok _ =>
        rw [if_neg parent]
        exact ⟨_, rfl⟩
  · intro q declared id member
    rw [narrowed.members_eq] at member
    obtain ⟨x, found⟩ := listed q (narrowed.type_eq ▸ declared) id member
    have agree := narrows id
    rw [found] at agree
    show ∃ x, ConceptStore.find? w r.partition id = .ok x
    generalize ConceptStore.find? w r.partition id = y at agree
    cases agree with
    | ok _ => exact ⟨_, rfl⟩

/-- Where a deep read succeeds it does so on narrower states, and answers narrower states of what it would
answer. -/
theorem deep_narrowed {ids : List ConceptId} {found : List Concept} {journal₁ : Journal}
    (journal journal' : Journal) (run : r.deep ids none journal = (.ok found, journal₁)) :
    ∃ found', ((r.onto w).deep ids none journal').1 = .ok found' ∧
      ∀ c' ∈ found', ∃ c ∈ found, Narrowed c c' := by
  have monotone : r.gate.Monotone := role ▸ d.gate_monotone
  have monotone' : (r.onto w).gate.Monotone := monotone
  obtain ⟨top, _, shallow, reached, legible⟩ := deep_reached regular monotone run
  have thin := shallow_narrowed role narrows regular regular' ids journal journal'
  rw [shallow] at thin
  rcases shallow' : (r.onto w).shallow ids none journal' with ⟨x, journal₁'⟩
  rw [shallow'] at thin
  cases thin with
  | @ok _ top' thinner =>
    have narrow : ∀ c', Reached (r.onto w) top' c' → ∃ c ∈ found, Narrowed c c' := by
      intro c' below
      obtain ⟨c, above, narrowed⟩ := reached_narrowed role narrows thinner below
      exact ⟨c, (reached c).mpr above, narrowed⟩
    have legible' : ∀ c', Reached (r.onto w) top' c' → (r.onto w).Legible c' := by
      intro c' below
      obtain ⟨c, answered, narrowed⟩ := narrow c' below
      exact legible_narrowed role narrows narrowed (legible c answered)
    obtain ⟨found', journal₂, run'⟩ := deep_legible legible' regular' monotone' shallow'
    obtain ⟨top₂, _, shallow₂, reached', -⟩ := deep_reached regular' monotone' run'
    cases shallow'.symm.trans shallow₂
    exact ⟨found', congrArg Prod.fst run', fun c' answered => narrow c' ((reached' c').mp answered)⟩

end Shallow

end Reader

section Policy

variable {δ σ ε τ : Type} [Transactional δ σ] [Transactional ε τ] [ConceptStore σ] [ConceptStore τ]
  {d : ScopeDefaults} {actor : Actor}

/-- Two stores of which live reads answer an actor less on the second: shallow reads a part in the same
order, or the same failure, and deep reads, where they succeed on the first, a part. -/
def ReadsLess (gate : Gate) (actor : Actor) (db : δ) (db' : ε) : Prop :=
  ∀ (p : Partition) (ids : List ConceptId) (passOver : Bool) (now : Instant),
    Agreeing (fun found found' => (found'.map (·.id)).Sublist (found.map (·.id)))
      (({ gate } : Policy).readShallow actor p ids ⟨.live, passOver⟩ now db).1.result
      (({ gate } : Policy).readShallow actor p ids ⟨.live, passOver⟩ now db').1.result ∧
    ∀ found, (({ gate } : Policy).readDeep actor p ids ⟨.live, passOver⟩ now db).1.result = .ok found →
      ∃ found', (({ gate } : Policy).readDeep actor p ids ⟨.live, passOver⟩ now db').1.result =
        .ok found' ∧ found'.map (·.id) ⊆ found.map (·.id)

/-- Two views, on the second of which every reader finds narrower states. -/
structure NarrowerView (v : σ) (w : τ) : Prop where
  regular : ∀ r : Reader σ, r.view = v → r.options.mode = .live → r.Regular
  regular' : ∀ r : Reader τ, r.view = w → r.options.mode = .live → r.Regular
  find : ∀ p id, Agreeing (Option.Rel Narrowed) (ConceptStore.find? v p id) (ConceptStore.find? w p id)

theorem ReadsLess.of_opened {db : δ} {db' : ε}
    (opened : ∀ now, Agreeing NarrowerView (Transactional.openRead now db).1
      (Transactional.openRead now db').1) : ReadsLess d.gate actor db db' := by
  intro p ids passOver now
  simp only [Policy.readShallow, Policy.readDeep, Policy.reading_result]
  have opened := opened now
  generalize (Transactional.openRead now db).1 = x at opened
  generalize (Transactional.openRead now db').1 = y at opened
  cases opened with
  | error f => exact ⟨.error f, fun _ answered => by cases answered⟩
  | @ok v w narrower =>
    let r : Reader σ := ⟨v, d.gate, actor, p, ⟨.live, passOver⟩⟩
    have regular : r.Regular := narrower.regular r rfl rfl
    have regular' : (r.onto w).Regular := narrower.regular' (r.onto w) rfl rfl
    have narrows : r.Narrows w := narrower.find p
    constructor
    · exact (Reader.shallow_narrowed rfl narrows regular regular' ids [] []).imp
        fun found found' thinner => thinner.sublist
    · intro found answered
      have run : r.deep ids none [] = (.ok found, (r.deep ids none []).2) := Prod.ext answered rfl
      obtain ⟨found', run', narrow⟩ :=
        Reader.deep_narrowed rfl narrows regular regular' [] [] run
      refine ⟨found', run', fun id member => ?_⟩
      obtain ⟨c', inside, rfl⟩ := List.mem_map.mp member
      obtain ⟨c, answered, narrowed⟩ := narrow c' inside
      exact List.mem_map.mpr ⟨c, answered, narrowed.id_eq.symm⟩

end Policy

section Stores

variable {p : Partition} {c c' : Concept}

namespace Memory

/-- Contents that are equal except that concepts shut out at least as many, and for the log. -/
def Contents.Narrower (s s' : Contents) : Prop :=
  ∀ a : Address, Option.Rel Narrowed (s.concepts.find? a) (s'.concepts.find? a)

namespace Contents.Narrower

variable {s s' : Contents}

theorem refl (s : Contents) : s.Narrower s := by
  intro a
  cases s.concepts.find? a with
  | none => exact .none
  | some c => exact .some (.refl c)

theorem put (narrower : s.Narrower s') (narrowed : Narrowed c c') :
    (s.put p c).Narrower (s'.put p c') := by
  intro a
  simp only [Contents.put, SortedMap.find?_insert, narrowed.id_eq]
  by_cases here : a = ⟨p, c.id⟩
  · rw [if_pos here, if_pos here]
    exact .some narrowed
  · rw [if_neg here, if_neg here]
    exact narrower a

theorem keyed (narrower : s.Narrower s') (keyed : s.Keyed) : s'.Keyed := by
  intro a c' found'
  have related := narrower a
  rw [show s'.concepts.find? a = some c' from found'] at related
  generalize found : s.concepts.find? a = x at related
  cases related with
  | some narrowed => exact narrowed.id_eq.trans (keyed a _ found)

theorem view {v w : View} (narrower : v.contents.Narrower w.contents) (keyed : v.contents.Keyed) :
    NarrowerView v w where
  regular r view live := Reader.regular_memory (view ▸ keyed) fun cached => nomatch live.symm.trans cached
  regular' r view live := Reader.regular_memory (view ▸ narrower.keyed keyed)
    fun cached => nomatch live.symm.trans cached
  find p id := by
    rw [View.find?_eq, View.find?_eq]
    exact .ok (narrower ⟨p, id⟩)

end Contents.Narrower

end Memory

namespace Tables

/-- A row in place of another one: the same, or both hold states of which the second shuts out at least
as many. -/
def ConceptRow.Narrower (codec : TextCodec) (k : ConceptKey) (row row' : ConceptRow) : Prop :=
  row' = row ∨ ∃ c c', decodeConcept codec k.id row = .ok c ∧ decodeConcept codec k.id row' = .ok c' ∧
    Narrowed c c'

/-- Tables that are equal except that concepts shut out at least as many, and for the log. -/
def Contents.Narrower (codec : TextCodec) (s s' : Contents) : Prop :=
  ∀ k, Option.Rel (ConceptRow.Narrower codec k) (s.concepts.find? k) (s'.concepts.find? k)

namespace Contents.Narrower

variable {codec : TextCodec} {s s' : Contents}

theorem refl (s : Contents) : s.Narrower codec s := by
  intro k
  cases s.concepts.find? k with
  | none => exact .none
  | some row => exact .some (.inl rfl)

theorem put (narrower : s.Narrower codec s') (narrowed : Narrowed c c')
    (read : decodeConcept codec c.id.text (encodeConcept codec c) = .ok c)
    (read' : decodeConcept codec c'.id.text (encodeConcept codec c') = .ok c') :
    (s.put codec p c).Narrower codec (s'.put codec p c') := by
  intro k
  simp only [Contents.put, SortedMap.find?_insert, narrowed.id_eq]
  by_cases here : k = keyOf p c.id
  · subst here
    rw [if_pos rfl, if_pos rfl]
    exact .some (.inr ⟨c, c', read, narrowed.id_eq ▸ read', narrowed⟩)
  · rw [if_neg here, if_neg here]
    exact narrower k

theorem find {v w : View} (codec : w.codec = v.codec)
    (narrower : v.contents.Narrower v.codec w.contents) (p : Partition) (id : ConceptId) :
    Agreeing (Option.Rel Narrowed) (v.find p id) (w.find p id) := by
  have row := narrower (keyOf p id)
  unfold View.find
  rw [codec]
  generalize v.contents.concepts.find? (keyOf p id) = x at row
  generalize w.contents.concepts.find? (keyOf p id) = y at row
  cases row with
  | none => exact .ok .none
  | @some row row' either =>
    rcases either with rfl | ⟨c, c', read, read', narrowed⟩
    · show Agreeing _ ((decodeConcept v.codec id.text row').map some)
        ((decodeConcept v.codec id.text row').map some)
      cases decodeConcept v.codec id.text row' with
      | error e => exact .error e
      | ok c => exact .ok (.some (.refl c))
    · rw [mapM_some_ok (show decodeConcept v.codec id.text row = _ from read),
        mapM_some_ok (show decodeConcept v.codec id.text row' = _ from read')]
      exact .ok (.some narrowed)

theorem view {v w : View} (codec : w.codec = v.codec)
    (narrower : v.contents.Narrower v.codec w.contents) : NarrowerView v w where
  regular _ _ live := Reader.regular_tables live
  regular' _ _ live := Reader.regular_tables live
  find p id := by
    rw [View.find?_eq, View.find?_eq]
    exact find codec narrower p id

end Contents.Narrower

end Tables

/-- Exclusions only narrow what is read, in memory and on tables: on a store in which every concept shuts
out at least as many, a shallow read answers a part of what it would answer, in the same order, and
a deep read a part. In memory reads do not fail while the store is available. -/
theorem reads_narrowed (d : ScopeDefaults) (actor : Actor) :
    (∀ m m' : Memory.Database, m'.unavailable = m.unavailable → m.contents.Keyed →
      m.contents.Narrower m'.contents → ReadsLess d.gate actor m m' ∧
        (m.unavailable = false → ∀ (p : Partition) (ids : List ConceptId) (passOver : Bool)
          (now : Instant), ∃ found, (({ gate := d.gate } : Policy).readDeep actor p ids
            ⟨.live, passOver⟩ now m).1.result = .ok found)) ∧
    (∀ t t' : Tables.Database, t'.codec = t.codec → t.contents.Narrower t.codec t'.contents →
      ReadsLess d.gate actor t t') := by
  constructor
  · intro m m' available keyed narrower
    constructor
    · refine .of_opened fun now => ?_
      show Agreeing _ (m.openView false now).1 (m'.openView false now).1
      unfold Memory.Database.openView
      rw [available]
      split
      · exact .error _
      · exact .ok (Memory.Contents.Narrower.view narrower keyed)
    · intro present p ids passOver now
      have regular := Reader.regular_memory
        (r := ⟨m.viewAt now, d.gate, actor, p, ⟨.live, passOver⟩⟩) keyed nofun
      have legible : ∀ id, ∃ x, ConceptStore.find? (m.viewAt now) p id = .ok x :=
        fun id => ⟨_, Memory.View.find?_eq _ p id⟩
      obtain ⟨found, journal, run⟩ := Reader.deep_total legible regular d.gate_monotone ids none []
      refine ⟨found, ?_⟩
      rw [Policy.readDeep, Memory.reading_of_found _ _ actor p _ now present run]
  · intro t t' codec narrower
    refine .of_opened fun now => ?_
    show Agreeing _ (t.viewAt false (Tables.millisOf now)) (t'.viewAt false (Tables.millisOf now))
    unfold Tables.Database.viewAt
    cases Tables.parseMillis (Tables.millisOf now) with
    | error e => exact .error e
    | ok time => exact .ok (Tables.Contents.Narrower.view codec narrower)

end Stores

section Example

open Memory

/-- A site directory that lists the library. -/
def listingDirectory (excluded : List Uuid) : Concept :=
  (directory (.ofNat 2) excluded).setProperty Property.siteReferenceDataLibrary (.refList [.ofNat 3])

/-- Once the reader is shut out of the first directory, its library is not read below it any more. -/
theorem reads_narrowed_listing :
    ReadsLess ({} : ScopeDefaults).gate reader (Memory.Database.besides (listingDirectory []))
      (Memory.Database.besides (listingDirectory [reader.id])) ∧
    ReadsLess ({} : ScopeDefaults).gate reader (Tables.Database.besides (listingDirectory []))
      (Tables.Database.besides (listingDirectory [reader.id])) ∧
    ([[], [reader.id]].map fun excluded =>
      (({ gate := ({} : ScopeDefaults).gate } : Policy).readDeep reader .siteDirectory
        [.ofNat 2, .ofNat 4] {} default
          (Memory.Database.besides (listingDirectory excluded))).1.result.toOption.map (·.map (·.id))) =
      [some [.ofNat 2, .ofNat 4, .ofNat 3, .ofNat 5], some [.ofNat 4, .ofNat 5]] := by
  have narrowed : Narrowed (listingDirectory []) (listingDirectory [reader.id]) := by
    refine ⟨rfl, fun a out => ?_, fun a out => out⟩
    cases out
  have none : ({} : Contents).Keyed := fun _ _ found => by cases found
  have keyed : (Memory.Database.besides (listingDirectory [])).contents.Keyed := none.put.put.put.put
  have plain : ∀ c : Concept, c.properties = .empty → c.Legible := by
    intro c none name t found
    rw [Concept.property?, none] at found
    cases found
  have readable : ∀ {c : Concept}, c.Legible →
      Tables.decodeConcept .lossless c.id.text (Tables.encodeConcept .lossless c) = .ok c :=
    Tables.decodeConcept_encodeConcept Tables.TextCodec.lossless_exact
  have listing : ∀ excluded, (listingDirectory excluded).Legible :=
    fun excluded => .setProperty (plain (directory (.ofNat 2) excluded) rfl) fun _ link => by cases link
  have opened : openDirectory.Legible := by
    unfold openDirectory
    exact .setProperty (plain (directory (.ofNat 4) []) rfl) fun _ link => by cases link
  have libraryRead := fun id d => readable (plain (library id d) rfl)
  refine ⟨((reads_narrowed {} reader).1 (.besides (listingDirectory []))
    (.besides (listingDirectory [reader.id])) rfl keyed ?_).1,
    (reads_narrowed {} reader).2 _ _ rfl ?_, ?_⟩
  · exact ((((Memory.Contents.Narrower.refl _).put narrowed).put (.refl _)).put (.refl _)).put (.refl _)
  · exact ((((Tables.Contents.Narrower.refl _).put narrowed (readable (listing []))
      (readable (listing [reader.id]))).put (.refl _) (libraryRead _ _) (libraryRead _ _)).put (.refl _)
        (readable opened) (readable opened)).put (.refl _) (libraryRead _ _) (libraryRead _ _)
  · decide +kernel

end Example

end ConceptLedger
