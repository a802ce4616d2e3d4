import ConceptLedger.Proofs.Read.Closure
import ConceptLedger.Proofs.Read.Concealment

/-!
Deep reads answer a least set. A deep read begins with the answer of the shallow one, goes on to the
end of what is pending, and answers no concept twice. What it answers is closed under the children
that may be read below a readable container, and is contained in every such set.
-/

namespace ConceptLedger

open Step

namespace Reader

section Order

variable {σ : Type} {r : Reader σ} {journal journal' : Journal}

/-- What is picked is picked once for each identifier. -/
theorem pick_nodup (ids : List ConceptId) (found : List Concept) :
    ((pick ids found).map (·.id)).Nodup := by
  induction ids generalizing found with
  | nil => exact List.nodup_nil
  | cons id rest ih =>
    unfold pick
    split
    · rename_i last picked
      have own : last.id = id := of_decide_eq_true (List.mem_filter.mp (List.mem_of_getLast? picked)).2
      refine List.nodup_cons.mpr ⟨fun again => ?_, ih _⟩
      obtain ⟨c, later, same⟩ := List.mem_map.mp again
      have other := of_decide_eq_true (List.mem_filter.mp (pick_subset _ _ c later)).2
      exact other (same.trans own)
    · exact ih found

variable [ConceptStore σ]

theorem load_nodup {t : Option ConceptType} {ids : List ConceptId} {found : List Concept}
    (loaded : r.load t ids = .ok found) : (found.map (·.id)).Nodup := by
  unfold load at loaded
  split at loaded
  · cases loaded
    exact List.nodup_nil
  · obtain ⟨all, -, rfl⟩ := Except.map_ok loaded
    exact pick_nodup ids all

/-- A shallow read answers no concept twice. -/
theorem shallow_nodup {ids : List ConceptId} {security : Option SecurityContext} {top : List Concept}
    (run : r.shallow ids security journal = (.ok top, journal')) : (top.map (·.id)).Nodup := by
  obtain ⟨all, loaded, run⟩ := lift_bind_eq_ok_iff.mp run
  exact ((siftEach_sublist run).map _).nodup (load_nodup loaded)

/-- Concepts that are all new are answered in their order after what is answered already. -/
theorem acceptAll_appends {cs : List Concept} {s s' : Progress}
    (new : ((s.found ++ cs).map (·.id)).Nodup) (run : cs.foldlM r.accept s = .ok s') :
    s'.found = s.found ++ cs := by
  induction cs generalizing s with
  | nil =>
    cases run
    exact (List.append_nil _).symm
  | cons c rest ih =>
    rw [List.foldlM_cons] at run
    obtain ⟨middle, accepted, later⟩ := Except.bind_ok run
    rcases accept_ok accepted with ⟨known, -⟩ | ⟨-, pending, -, rfl⟩
    · obtain ⟨b, answered, same⟩ := Progress.has_iff.mp known
      rw [List.map_append, List.nodup_append] at new
      exact (new.2.2 b.id (List.mem_map_of_mem answered) c.id List.mem_cons_self same).elim
    · have regrouped : s.found ++ [c] ++ rest = s.found ++ c :: rest := by
        rw [List.append_assoc, List.singleton_append]
      have followed := ih (s := ⟨s.found ++ [c], s.pending ++ pending⟩) (regrouped.symm ▸ new) later
      exact followed.trans regrouped

theorem acceptAll_prefix {cs : List Concept} {s s' : Progress} (run : cs.foldlM r.accept s = .ok s') :
    s.found <+: s'.found := by
  induction cs generalizing s with
  | nil =>
    cases run
    exact List.prefix_rfl
  | cons c rest ih =>
    rw [List.foldlM_cons] at run
    obtain ⟨middle, accepted, later⟩ := Except.bind_ok run
    refine List.IsPrefix.trans ?_ (ih later)
    rcases accept_ok accepted with ⟨-, rfl⟩ | ⟨-, pending, -, rfl⟩
    · exact List.prefix_rfl
    · exact List.prefix_append _ _

/-- Turns only add to the end of what is answered. -/
theorem turns_prefix {s s' : Progress} (turns : Relation.ReflTransGen (Turn r) s s') :
    s.found <+: s'.found := by
  induction turns with
  | refl => exact List.prefix_rfl
  | tail _ turn ih =>
    obtain ⟨-, -, accepted⟩ := turn
    have grown := acceptAll_prefix accepted
    exact ih.trans grown

end Order

variable {σ : Type} [ConceptStore σ]

/-- A set of concepts that reading children does not lead out of: it has every stored concept that one
of its members lists as a child of its type, that is not passed over, and that the gate lets the
actor read where the container may be read. -/
def Closed (r : Reader σ) (P : Concept → Prop) : Prop :=
  ∀ parent, P parent → ∀ q ∈ parent.conceptType.containment, ∀ c, c.id ∈ parent.members q →
    r.Holds c → c.conceptType = q.target → r.passesOver c = false →
    (∃ security : SecurityContext, security.containerReadable = true ∧
      r.permits security c = true) → P c

/-- An answer that begins with that of the shallow read, has no concept twice, and is the least closed
set with that beginning, come by in turns after which nothing is pending. -/
structure Least (r : Reader σ) (top found : List Concept) : Prop where
  leading : top <+: found
  once : (found.map (·.id)).Nodup
  stored : ∀ c ∈ found, r.Holds c
  closed : r.Closed (· ∈ found)
  least : ∀ P : Concept → Prop, (∀ c ∈ top, P c) → r.Closed P → ∀ c ∈ found, P c
  ended : ∃ start s, top.foldlM r.accept {} = .ok start ∧ Relation.ReflTransGen (Turn r) start s ∧
    s.pending = [] ∧ s.found = found

variable {r : Reader σ} (regular : r.Regular) (monotone : r.gate.Monotone)

include monotone

omit [ConceptStore σ] in
theorem admits_unrestricted_iff {c : Concept} : r.admits .unrestricted c = true ↔
    r.passesOver c = false ∧
      ∃ security : SecurityContext, security.containerReadable = true ∧ r.permits security c = true := by
  constructor
  · intro admitted
    obtain ⟨wanted, permitted⟩ := Bool.and_eq_true_iff.mp admitted
    exact ⟨by simpa using wanted, .unrestricted, rfl, permitted⟩
  · rintro ⟨wanted, security, readable, permitted⟩
    refine (admits_below monotone readable c).mp (Bool.and_eq_true_iff.mpr ⟨?_, permitted⟩)
    rw [wanted]
    rfl

/-- A closed set has all that can be come by from concepts that it has. -/
theorem Closed.reached {P : Concept → Prop} (closed : r.Closed P) {top : List Concept}
    (asked : ∀ c ∈ top, P c) {c : Concept} (reached : Reached r top c) : P c := by
  induction reached with
  | top member => exact asked _ member
  | child above declared listed held type admitted ih =>
    obtain ⟨wanted, permitted⟩ := (admits_unrestricted_iff monotone).mp admitted
    exact closed _ ih _ declared _ listed held type wanted permitted

theorem closed_reached (top : List Concept) : r.Closed (Reached r top) := by
  intro parent above q declared c listed held type wanted permitted
  exact .child above declared listed held type
    ((admits_unrestricted_iff monotone).mpr ⟨wanted, permitted⟩)

include regular

/-- What a deep read answers is the least closed set above the answer of the shallow read. -/
theorem deep_least {ids : List ConceptId} {security : Option SecurityContext} {found : List Concept}
    {journal journal' : Journal} (run : r.deep ids security journal = (.ok found, journal')) :
    ∃ top journal₁, r.shallow ids security journal = (.ok top, journal₁) ∧ r.Least top found := by
  obtain ⟨top, journal₁, start, s, shallow, accepted, turns, done, rfl⟩ := deep_ok regular run
  obtain ⟨top', _, shallow', reached, -⟩ := deep_reached regular monotone run
  cases shallow.symm.trans shallow'
  have held := regular.shallow_holds shallow
  obtain ⟨sound, -⟩ := start_sound regular held accepted
  have sound' := turns_sound regular sound turns
  have first : start.found = top := acceptAll_appends (s := {}) (shallow_nodup shallow) accepted
  have same : (· ∈ s.found) = Reached r top := funext fun c => propext (reached c)
  exact ⟨top, journal₁, shallow, {
    leading := first ▸ turns_prefix turns
    once := sound'.once
    stored := sound'.stored
    closed := same ▸ closed_reached monotone top
    least := fun P asked closed c answered => closed.reached monotone asked ((reached c).mp answered)
    ended := ⟨start, s, accepted, turns, done, rfl⟩ }⟩

/-- A deep read that is given more turns. -/
def deepWith (r : Reader σ) (more : Nat) (ids : List ConceptId) (security : Option SecurityContext) :
    ReadStep (List Concept) := do
  let top ← r.shallow ids security
  let start ← Step.lift (top.foldlM r.accept {})
  r.descend (5 * ConceptStore.extent r.view + 1 + more) start

end Reader

section Policy

variable {δ σ : Type} [Transactional δ σ] [ConceptStore σ] {d : ScopeDefaults} {actor : Actor}

/-- A store of which the live deep reads of an actor, where they succeed, answer the least closed set
above what the shallow read answers. They succeed where everything can be looked for, and in no case
does the number of turns that they are given matter. -/
def ReadsLeast (gate : Gate) (actor : Actor) (db : δ) : Prop :=
  ∀ (p : Partition) (ids : List ConceptId) (passOver : Bool) (now : Instant) (v : σ),
    (Transactional.openRead now db).1 = .ok v →
    let policy : Policy := { gate }
    let r : Reader σ := ⟨v, gate, actor, p, ⟨.live, passOver⟩⟩
    (∀ found, (policy.readDeep actor p ids ⟨.live, passOver⟩ now db).1.result = .ok found →
      ∃ top, (policy.readShallow actor p ids ⟨.live, passOver⟩ now db).1.result = .ok top ∧
        r.Least top found) ∧
    ((∀ id, ∃ x, ConceptStore.find? v p id = .ok x) →
      ∃ found, (policy.readDeep actor p ids ⟨.live, passOver⟩ now db).1.result = .ok found) ∧
    ∀ more, r.deepWith more ids none = r.deep ids none

theorem ReadsLeast.of_regular {db : δ}
    (regular : ∀ now (v : σ), (Transactional.openRead now db).1 = .ok v → ∀ r : Reader σ, r.view = v →
      r.options.mode = .live → r.Regular) : ReadsLeast d.gate actor db := by
  intro p ids passOver now v opened policy r
  have regular : r.Regular := regular now v opened r rfl rfl
  simp only [Policy.readShallow, Policy.readDeep, Policy.reading_result, opened, Except.bind]
  refine ⟨fun found answered => ?_, fun legible => ?_, Reader.deep_complete regular ids none⟩
  · have run : r.deep ids none [] = (.ok found, (r.deep ids none []).2) := Prod.ext answered rfl
    obtain ⟨top, _, shallow, least⟩ := Reader.deep_least regular d.gate_monotone run
    exact ⟨top, congrArg Prod.fst shallow, least⟩
  · obtain ⟨found, _, run⟩ := Reader.deep_total legible regular d.gate_monotone ids none []
    exact ⟨found, congrArg Prod.fst run⟩

end Policy

/-- Deep reads answer a least set, in memory and on tables, whatever the stored lists are like. In memory
they do not fail while the store is available. -/
theorem reads_least (d : ScopeDefaults) (actor : Actor) :
    (∀ m : Memory.Database, m.contents.Keyed → ReadsLeast d.gate actor m ∧
      (m.unavailable = false → ∀ (p : Partition) (ids : List ConceptId) (passOver : Bool)
        (now : Instant), ∃ top found,
          (({ gate := d.gate } : Policy).readShallow actor p ids ⟨.live, passOver⟩ now m).1.result =
            .ok top ∧
          (({ gate := d.gate } : Policy).readDeep actor p ids ⟨.live, passOver⟩ now m).1.result =
            .ok found ∧
          Reader.Least ⟨m.viewAt now, d.gate, actor, p, ⟨.live, passOver⟩⟩ top found)) ∧
    ∀ t : Tables.Database, ReadsLeast d.gate actor t := by
  constructor
  · intro m keyed
    have least : ReadsLeast d.gate actor m := by
      refine .of_regular fun now v opened r view live => ?_
      have same : v.contents = m.contents := by
        replace opened : (m.openView false now).1 = .ok v := opened
        unfold Memory.Database.openView at opened
        split at opened
        · cases opened
        · cases opened
          rfl
      exact Reader.regular_memory (view ▸ same ▸ keyed) fun cached => nomatch live.symm.trans cached
    refine ⟨least, fun available p ids passOver now => ?_⟩
    have opened : (Transactional.openRead now m).1 = .ok (m.viewAt now) :=
      congrArg Prod.fst (Memory.openView_of_available false now available)
    obtain ⟨answers, total, -⟩ := least p ids passOver now (m.viewAt now) opened
    obtain ⟨found, deep⟩ := total fun id => ⟨_, Memory.View.find?_eq _ p id⟩
    obtain ⟨top, shallow, spanned⟩ := answers found deep
    exact ⟨top, found, shallow, deep, spanned⟩
  · exact fun t => .of_regular fun _ _ _ _ _ live => Reader.regular_tables live

section Example

open Memory

/-- A site directory that lists its library twice, another directory as if it were a library, the library
of that directory, and one that is not stored. -/
def tangledDirectory : Concept :=
  (directory (.ofNat 2) []).setProperty Property.siteReferenceDataLibrary
    (.refList [.ofNat 3, .ofNat 4, .ofNat 7, .ofNat 5, .ofNat 3])

/-- Each library is answered once, after the directories that are asked for. -/
theorem reads_least_tangled :
    ReadsLeast ({} : ScopeDefaults).gate reader (Memory.Database.besides tangledDirectory) ∧
    ReadsLeast ({} : ScopeDefaults).gate reader (Tables.Database.besides tangledDirectory) ∧
    ∃ top found,
      (({ gate := ({} : ScopeDefaults).gate } : Policy).readDeep reader .siteDirectory
        [.ofNat 4, .ofNat 2, .ofNat 4] {} default
          (Memory.Database.besides tangledDirectory)).1.result = .ok found ∧
      top.map (·.id) = [.ofNat 4, .ofNat 2] ∧
      found.map (·.id) = [.ofNat 4, .ofNat 2, .ofNat 5, .ofNat 3] ∧
      Reader.Least ⟨(Memory.Database.besides tangledDirectory).viewAt default,
        ({} : ScopeDefaults).gate, reader, .siteDirectory, {}⟩ top found := by
  have none : ({} : Contents).Keyed := fun _ _ found => nomatch found
  have keyed : (Memory.Database.besides tangledDirectory).contents.Keyed := none.put.put.put.put
  obtain ⟨least, total⟩ := (reads_least {} reader).1 _ keyed
  obtain ⟨top, found, shallow, deep, spanned⟩ :=
    total rfl .siteDirectory [.ofNat 4, .ofNat 2, .ofNat 4] false default
  have asked : (({ gate := ({} : ScopeDefaults).gate } : Policy).readShallow reader .siteDirectory
      [.ofNat 4, .ofNat 2, .ofNat 4] {} default
        (Memory.Database.besides tangledDirectory)).1.result.toOption.map (·.map (·.id)) =
          some [.ofNat 4, .ofNat 2] := by
    decide +kernel
  have answered : (({ gate := ({} : ScopeDefaults).gate } : Policy).readDeep reader .siteDirectory
      [.ofNat 4, .ofNat 2, .ofNat 4] {} default
        (Memory.Database.besides tangledDirectory)).1.result.toOption.map (·.map (·.id)) =
          some [.ofNat 4, .ofNat 2, .ofNat 5, .ofNat 3] := by
    decide +kernel
  rw [show _ = Except.ok top from shallow] at asked
  rw [show _ = Except.ok found from deep] at answered
  exact ⟨least, (reads_least {} reader).2 _, top, found, deep, Option.some.inj asked,
    Option.some.inj answered, spanned⟩

end Example

end ConceptLedger
