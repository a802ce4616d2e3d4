import ConceptLedger.Proofs.Data.SortedMap
import ConceptLedger.Proofs.Read.Alike
import ConceptLedger.Proofs.Read.Disclosure
import ConceptLedger.Proofs.Step.Alike
import ConceptLedger.Proofs.Tables.Codec
import ConceptLedger.Proofs.Tables.Rows
import ConceptLedger.Store.Memory
import ConceptLedger.Store.Tables.View
import Mathlib.Data.List.Forall2

/-!
What an actor may not read does not influence what he reads. A concept that is kept from him under
every context still serves as the container of others and is asked for as a child, but whatever it
holds besides its identity, its type, its container and its exclusions, it is passed over alike.
-/

namespace ConceptLedger

open Step

/-- Two states of a concept between which an actor cannot tell: they are equal, or both are kept from
him wherever they are contained. -/
inductive Concealed (gate : Gate) (actor : Actor) (p : Partition) : Concept → Concept → Prop
  | same (c : Concept) : Concealed gate actor p c c
  | kept {c c' : Concept} (id : c'.id = c.id) (type : c'.conceptType = c.conceptType)
      (container : c'.container = c.container) (override : c'.accessOverride = c.accessOverride)
      (unread : gate.canRead actor c p .unrestricted = false) : Concealed gate actor p c c'

theorem Concealed.id_eq {gate : Gate} {actor : Actor} {p : Partition} {c c' : Concept}
    (concealed : Concealed gate actor p c c') : c'.id = c.id := by
  cases concealed with
  | same => rfl
  | kept id => exact id

namespace ScopeDefaults

variable {d : ScopeDefaults} {actor : Actor} {p : Partition} {c c' : Concept}

/-- Who may not read a concept under no restriction may neither read nor write it under any. -/
theorem shut_out (unread : d.gate.canRead actor c p .unrestricted = false)
    (security : SecurityContext) (kind : OperationKind) :
    d.gate.canRead actor c p security = false ∧ d.gate.canWrite actor c kind p security = false := by
  show (admits actor c p && _) = false ∧ (admits actor c p && _) = false
  have unread : (admits actor c p && _) = false := unread
  cases admitted : admits actor c p with
  | false => exact ⟨rfl, rfl⟩
  | true =>
    rw [admitted] at unread
    cases right : d.rightOf actor c.conceptType p with
    | none => exact ⟨rfl, rfl⟩
    | read | modify | modifyIfOwner | sameAsContainer =>
      rw [right] at unread
      cases unread

theorem canRead_congr (type : c'.conceptType = c.conceptType)
    (override : c'.accessOverride = c.accessOverride) (security : SecurityContext) :
    d.gate.canRead actor c' p security = d.gate.canRead actor c p security := by
  simp only [gate, admits, type, override]

/-- As the container of others a concept that is kept from an actor is always the same. -/
theorem contextFor_concealed (concealed : Concealed d.gate actor p c c') :
    d.gate.contextFor actor p (some c') = d.gate.contextFor actor p (some c) := by
  cases concealed with
  | same => rfl
  | kept id type container override unread =>
    have unread' := (canRead_congr type override .unrestricted).trans unread
    simp only [Gate.contextFor, unread, unread', (shut_out unread .unrestricted .update).2,
      (shut_out unread' .unrestricted .update).2]

end ScopeDefaults

/-- Two answers that go together: both good, with related values, or the same failure. -/
inductive Agreeing {α β : Type} (R : α → β → Prop) : Except Failure α → Except Failure β → Prop
  | ok {a : α} {b : β} (related : R a b) : Agreeing R (.ok a) (.ok b)
  | error (e : Failure) : Agreeing R (.error e) (.error e)

namespace Agreeing

variable {α β γ δ : Type} {R : α → β → Prop} {S : γ → δ → Prop}

theorem map {f : α → γ} {g : β → δ} {x : Except Failure α} {y : Except Failure β}
    (agree : Agreeing R x y) (related : ∀ a b, R a b → S (f a) (g b)) :
    Agreeing S (x.map f) (y.map g) := by
  cases agree with
  | ok first => exact .ok (related _ _ first)
  | error e => exact .error e

theorem imp {R' : α → β → Prop} {x : Except Failure α} {y : Except Failure β}
    (agree : Agreeing R x y) (related : ∀ a b, R a b → R' a b) : Agreeing R' x y := by
  cases agree with
  | ok first => exact .ok (related _ _ first)
  | error e => exact .error e

theorem mapM {f : γ → Except Failure α} {g : γ → Except Failure β}
    (each : ∀ c, Agreeing R (f c) (g c)) (l : List γ) :
    Agreeing (List.Forall₂ R) (l.mapM f) (l.mapM g) := by
  induction l with
  | nil => exact .ok .nil
  | cons c rest ih =>
    rw [List.mapM_cons, List.mapM_cons]
    have first := each c
    generalize f c = x at first
    generalize g c = y at first
    cases first with
    | error e => exact .error e
    | ok here =>
      generalize rest.mapM f = xs at ih
      generalize rest.mapM g = ys at ih
      cases ih with
      | error e => exact .error e
      | ok others => exact .ok (.cons here others)

end Agreeing

/-- Two reads with the same result, whatever they report. -/
def SameResult {α : Type} (x y : ReadStep α) : Prop :=
  Step.Alike (fun _ _ => True) Eq (fun _ => True) x y

namespace SameResult

variable {α β γ : Type} {R : α → β → Prop}

theorem result_eq {x y : ReadStep α} (same : SameResult x y) (journal journal' : Journal) :
    (y journal').1 = (x journal).1 := by
  have outcomes := same journal journal' trivial
  generalize x journal = first at outcomes
  generalize y journal' = second at outcomes
  cases outcomes with
  | ok => rfl
  | error failures => rw [failures]

theorem lifted {x : Except Failure α} : SameResult (Step.lift x) (Step.lift x) :=
  Alike.lift (fun _ _ => trivial) fun _ _ => rfl

/-- Computations that agree may be followed by reads that do so on related values. -/
theorem lift_bind {x : Except Failure α} {y : Except Failure β} {f : α → ReadStep γ}
    {g : β → ReadStep γ} (agree : Agreeing R x y) (later : ∀ a b, R a b → SameResult (f a) (g b)) :
    SameResult (Step.lift x >>= f) (Step.lift y >>= g) := by
  cases agree with
  | ok related => exact later _ _ related
  | error e => exact fun _ _ _ => .error rfl trivial

end SameResult

/-- Two views between which an actor cannot tell, as far as current concepts are asked for. -/
structure Veiled {σ τ : Type} [ConceptStore σ] [ConceptStore τ] (gate : Gate) (actor : Actor) (v : σ)
    (w : τ) : Prop where
  read : ∀ p t ids, Agreeing (List.Forall₂ (Concealed gate actor p))
    (ConceptStore.read v p t (some ids)) (ConceptStore.read w p t (some ids))
  extent : ConceptStore.extent w = ConceptStore.extent v

namespace Reader

variable {d : ScopeDefaults} {actor : Actor} {p : Partition}

/-- Two lists that are related entry by entry end in related entries. -/
theorem getLast?_related {α β : Type} {R : α → β → Prop} {l : List α} {l' : List β}
    (related : List.Forall₂ R l l') : Option.Rel R l.getLast? l'.getLast? := by
  rw [List.getLast?_eq_head?_reverse, List.getLast?_eq_head?_reverse]
  have related := List.rel_reverse related
  generalize l.reverse = m at related
  generalize l'.reverse = m' at related
  cases related with
  | nil => exact .none
  | cons first => exact .some first

/-- Picking by identifiers goes along with every relation that keeps them. -/
theorem pick_related {R : Concept → Concept → Prop} (own : ∀ c c', R c c' → c'.id = c.id)
    (ids : List ConceptId) {found found' : List Concept} (related : List.Forall₂ R found found') :
    List.Forall₂ R (pick ids found) (pick ids found') := by
  have keep : ∀ (P : ConceptId → Bool) {l l' : List Concept}, List.Forall₂ R l l' →
      List.Forall₂ R (l.filter fun c => P c.id) (l'.filter fun c => P c.id) := by
    intro P l l' related
    refine List.rel_filter (fun c c' same => ?_) related
    show P c.id = true ↔ P c'.id = true
    rw [own c c' same]
  induction ids generalizing found found' with
  | nil => exact .nil
  | cons id rest ih =>
    have last := getLast?_related (keep (fun x => x = id) related)
    unfold pick
    generalize (found.filter fun c => c.id = id).getLast? = here at last
    generalize (found'.filter fun c => c.id = id).getLast? = here' at last
    cases last with
    | none => exact ih related
    | some first => exact .cons first (ih (keep (fun x => x ≠ id) related))

/-- Picking by identifiers treats concealed states alike. -/
theorem pick_concealed {gate : Gate} (ids : List ConceptId) {found found' : List Concept}
    (veiled : List.Forall₂ (Concealed gate actor p) found found') :
    List.Forall₂ (Concealed gate actor p) (pick ids found) (pick ids found') :=
  pick_related (fun _ _ => Concealed.id_eq) ids veiled

/-- The same concepts are answered of lists of concealed states. -/
theorem filter_admits {σ : Type} {r : Reader σ} (role : r.gate = d.gate) {cs cs' : List Concept}
    (veiled : List.Forall₂ (Concealed d.gate r.actor r.partition) cs cs')
    (security : SecurityContext) :
    cs'.filter (r.admits security) = cs.filter (r.admits security) := by
  induction veiled with
  | nil => rfl
  | @cons c c' rest rest' first _ ih =>
    cases first with
    | same => rw [List.filter_cons, List.filter_cons, ih]
    | kept id type container override unread =>
      have unread' := (ScopeDefaults.canRead_congr type override .unrestricted).trans unread
      have denied : ∀ x, d.gate.canRead r.actor x r.partition .unrestricted = false →
          r.admits security x = false := by
        intro x unread
        rw [admits, permits, role, (ScopeDefaults.shut_out unread security .read).1, Bool.and_false]
      rw [List.filter_cons, List.filter_cons, denied c unread, denied c' unread']
      exact ih

section Veil

variable {σ τ : Type} [ConceptStore σ] [ConceptStore τ] {r : Reader σ} {w : τ} {cs cs' : List Concept}
  (role : r.gate = d.gate) (live : r.options.mode = .live) (veiled : Veiled d.gate r.actor r.view w)

include role veiled

theorem contextOf_veiled {c c' : Concept} (concealed : Concealed d.gate r.actor r.partition c c') :
    (r.onto w).contextOf c' = r.contextOf c := by
  have container : c'.container = c.container := by
    cases concealed with
    | same => rfl
    | kept _ _ container => exact container
  unfold contextOf
  rw [container]
  cases c.container with
  | none => rfl
  | some id =>
    have read := veiled.read r.partition none [id]
    show (ConceptStore.find? w r.partition id).map _ = (ConceptStore.find? r.view r.partition id).map _
    unfold ConceptStore.find?
    generalize ConceptStore.read r.view r.partition none (some [id]) = x at read
    generalize ConceptStore.read w r.partition none (some [id]) = y at read
    cases read with
    | error e => rfl
    | ok related =>
      cases related with
      | nil => rfl
      | cons first _ =>
        show Except.ok (r.gate.contextFor _ _ _) = Except.ok (r.gate.contextFor _ _ _)
        rw [role]
        exact congrArg Except.ok (ScopeDefaults.contextFor_concealed first)

include live in
omit role in
theorem load_veiled (t : Option ConceptType) (ids : List ConceptId) :
    Agreeing (List.Forall₂ (Concealed d.gate r.actor r.partition)) (r.load t ids)
      ((r.onto w).load t ids) := by
  unfold load
  split
  · exact .ok .nil
  · rw [show (r.onto w).options.mode = .live from live, live]
    exact (veiled.read r.partition t ids).map fun _ _ => pick_concealed ids

omit [ConceptStore σ] [ConceptStore τ] veiled in
theorem sift_veiled (related : List.Forall₂ (Concealed d.gate r.actor r.partition) cs cs')
    (security : SecurityContext) :
    SameResult (r.sift security cs) ((r.onto w).sift security cs') := by
  intro journal journal' _
  show Matched _ _ _ (.ok (cs.filter (r.admits security)), _) (.ok (cs'.filter (r.admits security)), _)
  rw [filter_admits role related security]
  exact .ok trivial trivial

theorem siftEach_veiled (security : Option SecurityContext)
    (related : List.Forall₂ (Concealed d.gate r.actor r.partition) cs cs') :
    SameResult (r.siftEach security cs) ((r.onto w).siftEach security cs') := by
  induction related with
  | nil => exact Alike.pure trivial
  | @cons c c' rest rest' first others ih =>
    have siftAll : ∀ context, SameResult
        (do
          let first ← r.sift context [c]
          let later ← r.siftEach security rest
          pure (first ++ later))
        (do
          let first ← (r.onto w).sift context [c']
          let later ← (r.onto w).siftEach security rest'
          pure (first ++ later)) :=
      fun context => (sift_veiled role (.cons first .nil) context).bind fun here _ =>
        ih.bind fun later _ => Alike.pure trivial
    unfold siftEach
    cases security with
    | some context => exact SameResult.lifted.bind fun context _ => siftAll context
    | none =>
      dsimp only
      rw [contextOf_veiled role veiled first]
      exact SameResult.lifted.bind fun context _ => siftAll context

include live in
/-- Shallow reads have the same result. -/
theorem shallow_veiled (ids : List ConceptId) (security : Option SecurityContext) :
    SameResult (r.shallow ids security) ((r.onto w).shallow ids security) :=
  .lift_bind (load_veiled live veiled none ids) fun _ _ => siftEach_veiled role veiled security

include live in
theorem resolve_veiled (t : ConceptType) (ids : List ConceptId) (security : SecurityContext) :
    SameResult (r.resolve t ids security) ((r.onto w).resolve t ids security) :=
  .lift_bind (load_veiled live veiled (some t) ids) fun _ _ related =>
    sift_veiled role related security

theorem accept_veiled : (r.onto w).accept = r.accept := by
  funext s c
  unfold accept children
  rw [contextOf_veiled role veiled (.same c)]
  rfl

include live in
theorem descend_veiled (turns : Nat) (s : Progress) :
    SameResult (r.descend turns s) ((r.onto w).descend turns s) := by
  induction turns generalizing s with
  | zero => exact Alike.pure trivial
  | succ turns ih =>
    unfold descend
    rw [accept_veiled role veiled]
    cases s.pending with
    | nil => exact Alike.pure trivial
    | cons next pending =>
      exact (resolve_veiled role live veiled _ _ _).bind fun here _ =>
        SameResult.lifted.bind fun s' _ => ih s'

include live in
/-- Deep reads have the same result. -/
theorem deep_veiled (ids : List ConceptId) (security : Option SecurityContext) :
    SameResult (r.deep ids security) ((r.onto w).deep ids security) := by
  unfold deep
  rw [accept_veiled role veiled,
    show ConceptStore.extent (r.onto w).view = ConceptStore.extent r.view from veiled.extent]
  exact (shallow_veiled role live veiled ids security).bind fun top _ =>
    SameResult.lifted.bind fun start _ => descend_veiled role live veiled _ start

end Veil

end Reader

section Policy

variable {δ σ ε τ : Type} [Transactional δ σ] [Transactional ε τ] {d : ScopeDefaults} {actor : Actor}

/-- What a reading answers is what its body answers on the view that is opened. -/
theorem Policy.reading_result {α : Type} (policy : Policy) (op : String) (p : Partition)
    (options : ReadOptions) (now : Instant) (body : Reader σ → ReadStep α) (db : δ) :
    (policy.reading op actor p options now body db).1.result =
      (Transactional.openRead now db).1.bind fun v =>
        (body ⟨v, policy.gate, actor, p, options⟩ []).1 := by
  unfold Policy.reading
  cases opened : Transactional.openRead now db with
  | mk result rest =>
    cases result with
    | error f => rfl
    | ok v => rfl

variable [ConceptStore σ] [ConceptStore τ]

/-- Two stores whose live reads, shallow and deep ones, answer an actor the same. -/
def ReadsSame (gate : Gate) (actor : Actor) (db : δ) (db' : ε) : Prop :=
  ∀ (p : Partition) (ids : List ConceptId) (passOver : Bool) (now : Instant),
    (({ gate } : Policy).readShallow actor p ids ⟨.live, passOver⟩ now db').1.result =
      (({ gate } : Policy).readShallow actor p ids ⟨.live, passOver⟩ now db).1.result ∧
    (({ gate } : Policy).readDeep actor p ids ⟨.live, passOver⟩ now db').1.result =
      (({ gate } : Policy).readDeep actor p ids ⟨.live, passOver⟩ now db).1.result

theorem ReadsSame.of_opened {db : δ} {db' : ε}
    (opened : ∀ now, Agreeing (Veiled d.gate actor) (Transactional.openRead now db).1
      (Transactional.openRead now db').1) : ReadsSame d.gate actor db db' := by
  intro p ids passOver now
  simp only [Policy.readShallow, Policy.readDeep, Policy.reading_result]
  have opened := opened now
  generalize (Transactional.openRead now db).1 = x at opened
  generalize (Transactional.openRead now db').1 = y at opened
  cases opened with
  | error f => exact ⟨rfl, rfl⟩
  | @ok v w veiled =>
    let r : Reader σ := ⟨v, d.gate, actor, p, ⟨.live, passOver⟩⟩
    exact ⟨(Reader.shallow_veiled (r := r) rfl rfl veiled ids none).result_eq [] [],
      (Reader.deep_veiled (r := r) rfl rfl veiled ids none).result_eq [] []⟩

end Policy

section Stores

variable {gate : Gate} {actor : Actor} {p : Partition} {c c' : Concept}

namespace Memory

/-- Contents that differ at most in concepts that are kept from an actor. -/
structure Contents.Veiled (gate : Gate) (actor : Actor) (s s' : Contents) : Prop where
  concepts : ∀ a : Address,
    Option.Rel (Concealed gate actor a.partition) (s.concepts.find? a) (s'.concepts.find? a)
  log : s'.log = s.log

namespace Contents.Veiled

variable {s s' : Contents}

theorem refl (s : Contents) : s.Veiled gate actor s where
  concepts a := by
    cases s.concepts.find? a with
    | none => exact .none
    | some c => exact .some (.same c)
  log := rfl

/-- States between which the actor cannot tell may be put in place on either side. -/
theorem put (veiled : s.Veiled gate actor s') (concealed : Concealed gate actor p c c') :
    (s.put p c).Veiled gate actor (s'.put p c') where
  concepts a := by
    have id := concealed.id_eq
    simp only [Contents.put, SortedMap.find?_insert, id]
    by_cases here : a = ⟨p, c.id⟩
    · subst here
      rw [if_pos rfl, if_pos rfl]
      exact .some concealed
    · rw [if_neg here, if_neg here]
      exact veiled.concepts a
  log := veiled.log

theorem view {v w : View} (veiled : v.contents.Veiled gate actor w.contents) :
    ConceptLedger.Veiled gate actor v w where
  read p t ids := by
    refine .ok (List.rel_filter ?_ (List.rel_filterMap (fun id id' same => ?_)
      (List.forall₂_same.mpr fun id _ => rfl : List.Forall₂ Eq ids ids)))
    · rintro c c' (_ | ⟨-, type⟩)
      · exact Iff.rfl
      · show View.ofType t c = true ↔ View.ofType t c' = true
        rw [View.ofType, View.ofType, type]
    · subst same
      exact veiled.concepts ⟨p, id⟩
  extent := by
    have size : w.contents.concepts.size = v.contents.concepts.size :=
      SortedMap.size_of_isSome fun a => by
        have concept := veiled.concepts a
        generalize v.contents.concepts.find? a = x at concept
        generalize w.contents.concepts.find? a = y at concept
        cases concept <;> rfl
    show w.contents.concepts.size + w.contents.log.length = _
    rw [size, veiled.log]
    rfl

end Contents.Veiled

end Memory

namespace Tables

/-- A row in place of another one: the same, or both hold states between which an actor cannot
tell. -/
def ConceptRow.Veiled (gate : Gate) (actor : Actor) (codec : TextCodec) (k : ConceptKey)
    (row row' : ConceptRow) : Prop :=
  row' = row ∨ ∃ c c', decodeConcept codec k.id row = .ok c ∧ decodeConcept codec k.id row' = .ok c' ∧
    ∀ p, k.partition = Partition.name p → Concealed gate actor p c c'

/-- Tables that differ at most in concepts that are kept from an actor. -/
structure Contents.Veiled (gate : Gate) (actor : Actor) (codec : TextCodec) (s s' : Contents) :
    Prop where
  concepts : ∀ k, Option.Rel (ConceptRow.Veiled gate actor codec k) (s.concepts.find? k)
    (s'.concepts.find? k)
  log : s'.log = s.log

namespace Contents.Veiled

variable {codec : TextCodec} {s s' : Contents}

theorem refl (s : Contents) : s.Veiled gate actor codec s where
  concepts k := by
    cases s.concepts.find? k with
    | none => exact .none
    | some row => exact .some (.inl rfl)
  log := rfl

theorem put (veiled : s.Veiled gate actor codec s') (concealed : Concealed gate actor p c c')
    (read : decodeConcept codec c.id.text (encodeConcept codec c) = .ok c)
    (read' : decodeConcept codec c'.id.text (encodeConcept codec c') = .ok c') :
    (s.put codec p c).Veiled gate actor codec (s'.put codec p c') where
  concepts k := by
    have id := concealed.id_eq
    simp only [Contents.put, SortedMap.find?_insert, id]
    by_cases here : k = keyOf p c.id
    · subst here
      rw [if_pos rfl, if_pos rfl]
      refine .some (.inr ⟨c, c', read, id ▸ read', fun q same => ?_⟩)
      rw [← Partition.name_embeds.eq_iff.mp same]
      exact concealed
    · rw [if_neg here, if_neg here]
      exact veiled.concepts k
  log := veiled.log

theorem find {v w : View} (codec : w.codec = v.codec)
    (veiled : v.contents.Veiled gate actor v.codec w.contents) (p : Partition) (id : ConceptId) :
    Agreeing (Option.Rel (Concealed gate actor p)) (v.find p id) (w.find p id) := by
  have row := veiled.concepts (keyOf p id)
  unfold View.find
  rw [codec]
  generalize v.contents.concepts.find? (keyOf p id) = x at row
  generalize w.contents.concepts.find? (keyOf p id) = y at row
  cases row with
  | none => exact .ok .none
  | @some row row' either =>
    rcases either with rfl | ⟨c, c', read, read', concealed⟩
    · show Agreeing _ ((decodeConcept v.codec id.text row').map some)
        ((decodeConcept v.codec id.text row').map some)
      cases decodeConcept v.codec id.text row' with
      | error e => exact .error e
      | ok c => exact .ok (.some (.same c))
    · rw [mapM_some_ok (show decodeConcept v.codec id.text row = _ from read),
        mapM_some_ok (show decodeConcept v.codec id.text row' = _ from read')]
      exact .ok (.some (concealed p rfl))

theorem view {v w : View} (codec : w.codec = v.codec)
    (veiled : v.contents.Veiled gate actor v.codec w.contents) :
    ConceptLedger.Veiled gate actor v w where
  read p t ids := by
    refine (Agreeing.mapM (veiled.find codec p) ids).map fun found found' related => ?_
    refine List.rel_filter ?_ (List.rel_filterMap (fun x y related => related) related)
    rintro c c' (_ | ⟨-, type⟩)
    · exact Iff.rfl
    · dsimp only
      rw [type]
  extent := by
    have size : w.contents.concepts.size = v.contents.concepts.size :=
      SortedMap.size_of_isSome fun k => by
        have row := veiled.concepts k
        generalize v.contents.concepts.find? k = x at row
        generalize w.contents.concepts.find? k = y at row
        cases row <;> rfl
    show w.contents.concepts.size + w.contents.log.size = _
    rw [size, veiled.log]
    rfl

end Contents.Veiled

end Tables

/-- Concepts that an actor may not read have no influence on what live reads answer him, in memory and
on tables, whatever else the stores hold. -/
theorem reads_concealed (d : ScopeDefaults) (actor : Actor) :
    (∀ m m' : Memory.Database, m'.unavailable = m.unavailable →
      m.contents.Veiled d.gate actor m'.contents → ReadsSame d.gate actor m m') ∧
    (∀ t t' : Tables.Database, t'.codec = t.codec →
      t.contents.Veiled d.gate actor t.codec t'.contents → ReadsSame d.gate actor t t') := by
  constructor
  · intro m m' available veiled
    refine .of_opened fun now => ?_
    show Agreeing _ (m.openView false now).1 (m'.openView false now).1
    unfold Memory.Database.openView
    rw [available]
    split
    · exact .error _
    · exact .ok (Memory.Contents.Veiled.view veiled)
  · intro t t' codec veiled
    refine .of_opened fun now => ?_
    show Agreeing _ (t.viewAt false (Tables.millisOf now)) (t'.viewAt false (Tables.millisOf now))
    unfold Tables.Database.viewAt
    cases Tables.parseMillis (Tables.millisOf now) with
    | error e => exact .error e
    | ok time => exact .ok (Tables.Contents.Veiled.view codec veiled)

end Stores

section Example

open Memory

/-- A site directory that the reader is shut out of. -/
def hiddenDirectory : Concept := directory (.ofNat 2) [reader.id]

/-- The same one with a mark of removal, with the reader as its owner and with two libraries in its
list, one of which is contained elsewhere. -/
def furnishedDirectory : Concept :=
  ((hiddenDirectory.setProperty Property.isDeleted (.bool true)).setProperty Property.owner
    (.ref reader.id)).setProperty Property.siteReferenceDataLibrary (.refList [.ofNat 3, .ofNat 5])

/-- A site directory that the reader is not shut out of, with a list of its library. -/
def openDirectory : Concept :=
  (directory (.ofNat 4) []).setProperty Property.siteReferenceDataLibrary (.refList [.ofNat 5])

/-- A store in memory with a first directory, its library, and another directory with one. -/
def Memory.Database.besides (c : Concept) : Memory.Database where
  contents := (((({} : Contents).put .siteDirectory c).put .siteDirectory
    (library (.ofNat 3) (.ofNat 2))).put .siteDirectory openDirectory).put .siteDirectory
      (library (.ofNat 5) (.ofNat 4))

/-- The same on tables. -/
def Tables.Database.besides (c : Concept) : Tables.Database where
  contents := (((({} : Contents).put .lossless .siteDirectory c).put .lossless .siteDirectory
    (library (.ofNat 3) (.ofNat 2))).put .lossless .siteDirectory openDirectory).put .lossless
      .siteDirectory (library (.ofNat 5) (.ofNat 4))
  codec := .lossless

/-- What the hidden directory holds makes no difference to the reader, who is answered the other
directory and its library. -/
theorem reads_concealed_furnished :
    ReadsSame ({} : ScopeDefaults).gate reader (Memory.Database.besides hiddenDirectory)
      (Memory.Database.besides furnishedDirectory) ∧
    ReadsSame ({} : ScopeDefaults).gate reader (Tables.Database.besides hiddenDirectory)
      (Tables.Database.besides furnishedDirectory) ∧
    (({ gate := ({} : ScopeDefaults).gate } : Policy).readDeep reader .siteDirectory
      [.ofNat 2, .ofNat 4] {} default
        (Memory.Database.besides furnishedDirectory)).1.result.toOption.map (·.map (·.id)) =
          some [.ofNat 4, .ofNat 5] := by
  have concealed : Concealed ({} : ScopeDefaults).gate reader .siteDirectory hiddenDirectory
      furnishedDirectory := .kept rfl rfl rfl rfl (by decide +kernel)
  have plain : ∀ c : Concept, c.properties = .empty → c.Legible := by
    intro c none name t found
    rw [Concept.property?, none] at found
    cases found
  have readable : ∀ {c : Concept}, c.Legible →
      Tables.decodeConcept .lossless c.id.text (Tables.encodeConcept .lossless c) = .ok c :=
    Tables.decodeConcept_encodeConcept Tables.TextCodec.lossless_exact
  have furnished : furnishedDirectory.Legible := by
    unfold furnishedDirectory
    refine .setProperty (.setRef (.setProperty (plain hiddenDirectory rfl) ?_)) ?_
    · exact nofun
    · exact nofun
  have opened : openDirectory.Legible := by
    unfold openDirectory
    exact .setProperty (plain (directory (.ofNat 4) []) rfl) nofun
  have hiddenRead := readable (plain hiddenDirectory rfl)
  have furnishedRead := readable furnished
  have openRead := readable opened
  have libraryRead := fun id d => readable (plain (library id d) rfl)
  refine ⟨(reads_concealed {} reader).1 _ _ rfl ?_, (reads_concealed {} reader).2 _ _ rfl ?_, ?_⟩
  · exact ((((Memory.Contents.Veiled.refl _).put concealed).put (.same _)).put (.same _)).put (.same _)
  · exact ((((Tables.Contents.Veiled.refl _).put concealed hiddenRead furnishedRead).put (.same _)
      (libraryRead _ _) (libraryRead _ _)).put (.same _) openRead openRead).put (.same _)
        (libraryRead _ _) (libraryRead _ _)
  · decide +kernel

end Example

end ConceptLedger
