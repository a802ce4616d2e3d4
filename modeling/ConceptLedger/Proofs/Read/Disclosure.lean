import ConceptLedger.Proofs.Containment.Integrity
import ConceptLedger.Proofs.Read.Cached

/-!
Deep reads disclose nothing that shallow reads would deny. The children of an answered concept are
judged as if that concept contained them. Where lists name only what is contained in the concept that
bears them, a shallow read of the child judges it alike.
-/

namespace ConceptLedger

open Step Memory

/-- A gate that denies no more where a container may be read than where it may not. -/
def Gate.Monotone (gate : Gate) : Prop :=
  ∀ actor c p (s t : SecurityContext), (s.containerReadable = true → t.containerReadable = true) →
    gate.canRead actor c p s = true → gate.canRead actor c p t = true

theorem ScopeDefaults.gate_monotone (d : ScopeDefaults) : d.gate.Monotone := by
  intro actor c p s t more allowed
  obtain ⟨admitted, right⟩ := Bool.and_eq_true_iff.mp allowed
  refine Bool.and_eq_true_iff.mpr ⟨admitted, ?_⟩
  cases kind : d.rightOf actor c.conceptType p with
  | sameAsContainer =>
    rw [kind] at right
    exact more right
  | none =>
    rw [kind] at right
    cases right
  | read | modify | modifyIfOwner => rfl

/-- What a containment list in a partition names is contained in the concept that bears the list. -/
def Memory.Contents.Housed (s : Contents) (p : Partition) : Prop :=
  ∀ y parent, s.find? p y = some parent → ∀ q ∈ parent.conceptType.containment,
    ∀ x ∈ parent.members q, ∀ c, s.find? p x = some c → c.conceptType = q.target →
      c.container = some y

theorem Forest.housed {s : Contents} {p : Partition} (forest : Forest (s.find? p)) : s.Housed p := by
  intro y parent there q declared x member c stored _
  obtain ⟨c', stored', outline⟩ :=
    Forest.outlines_eq_some_iff.mp ((forest.listed y parent there q declared x).mp member)
  cases stored.symm.trans stored'
  exact congrArg Outline.container outline

namespace Reader

variable {r : Reader View} {journal journal' : Journal}

/-- A stored concept that is answered under what its own container allows. -/
def Shown (r : Reader View) (c : Concept) : Prop :=
  r.Stored c ∧ ∃ security, r.contextOf c = .ok security ∧ r.admits security c = true

/-- Pending children whose own containers may be read. -/
def Pending.Open (r : Reader View) (next : Pending) : Prop :=
  ∀ id ∈ next.ids, ∀ c, r.view.contents.find? r.partition id = some c →
    c.conceptType = next.target →
    ∃ security, r.contextOf c = .ok security ∧ security.containerReadable = true

/-- A deep read that has answered what a shallow read would, and goes on below it. -/
structure Progress.Disclosed (r : Reader View) (s : Progress) : Prop where
  shown : ∀ c ∈ s.found, r.Shown c
  pending : ∀ next ∈ s.pending, next.Open r

/-- Without a context of their own, concepts are judged under what their containers allow. -/
theorem siftEach_own (c : Concept) (rest : List Concept) :
    r.siftEach none (c :: rest) = (do
      let context ← Step.lift (r.contextOf c)
      let first ← r.sift context [c]
      let later ← r.siftEach none rest
      Pure.pure (first ++ later)) := rfl

section Load

variable (logged : r.view.contents.Logged) (keyed : r.view.contents.Keyed)

include logged

theorem mem_load {t : Option ConceptType} {ids : List ConceptId} {found : List Concept}
    {c : Concept} (loaded : r.load t ids = .ok found) (member : c ∈ found) :
    ∃ id ∈ ids, r.view.contents.find? r.partition id = some c ∧
      ∀ kind ∈ t, c.conceptType = kind := by
  rw [load_eq logged] at loaded
  cases loaded
  obtain ⟨inside, kind⟩ := List.mem_filter.mp (pick_subset _ _ c member)
  obtain ⟨id, asked, stored⟩ := List.mem_filterMap.mp inside
  refine ⟨id, asked, stored, ?_⟩
  rintro kind' ⟨⟩
  exact of_decide_eq_true kind

/-- A concept that is shown is what a shallow read of its identifier answers. -/
theorem Shown.shallow {c : Concept} (shown : r.Shown c) (journal : Journal) :
    ∃ journal', r.shallow [c.id] none journal = (.ok [c], journal') := by
  obtain ⟨stored, security, context, admitted⟩ := shown
  have loaded : r.load none [c.id] = .ok [c] := by
    rw [load_eq logged]
    simp [pick, show r.view.contents.find? r.partition c.id = some c from stored]
  have sifted : r.sift security [c] journal = (.ok [c], journal ++ r.denials security [c]) := by
    simp [sift, admitted]
  refine ⟨journal ++ r.denials security [c], ?_⟩
  unfold Reader.shallow
  rw [bind_of_ok (lift_eq_ok_iff.mpr ⟨loaded, rfl⟩), siftEach_own,
    bind_of_ok (lift_eq_ok_iff.mpr ⟨context, rfl⟩), bind_of_ok sifted]
  rfl

include keyed

theorem stored_of_load {t : Option ConceptType} {ids : List ConceptId} {found : List Concept}
    {c : Concept} (loaded : r.load t ids = .ok found) (member : c ∈ found) : r.Stored c := by
  obtain ⟨id, -, stored, -⟩ := mem_load logged loaded member
  rw [Stored, keyed ⟨r.partition, id⟩ c stored]
  exact stored

omit logged keyed in
theorem siftEach_shown {cs found : List Concept} (stored : ∀ c ∈ cs, r.Stored c)
    (run : r.siftEach none cs journal = (.ok found, journal')) : ∀ c ∈ found, r.Shown c := by
  induction cs generalizing journal found journal' with
  | nil =>
    obtain ⟨rfl, -⟩ := pure_eq_ok_iff.mp run
    exact fun c member => nomatch member
  | cons first rest ih =>
    obtain ⟨here, others⟩ := List.forall_mem_cons.mp stored
    obtain ⟨security, context, run⟩ := lift_bind_eq_ok_iff.mp run
    obtain ⟨kept, _, sifted, run⟩ := bind_eq_ok_iff.mp run
    obtain ⟨later, _, siftedRest, run⟩ := bind_eq_ok_iff.mp run
    obtain ⟨rfl, -⟩ := pure_eq_ok_iff.mp run
    cases sifted
    intro c member
    rcases List.mem_append.mp member with first' | inRest
    · obtain ⟨single, admitted⟩ := List.mem_filter.mp first'
      obtain rfl := List.mem_singleton.mp single
      exact ⟨here, security, context, admitted⟩
    · exact ih others siftedRest c inRest

/-- What a shallow read answers is shown. -/
theorem shallow_shown {ids : List ConceptId} {found : List Concept}
    (run : r.shallow ids none journal = (.ok found, journal')) : ∀ c ∈ found, r.Shown c := by
  obtain ⟨all, loaded, run⟩ := lift_bind_eq_ok_iff.mp run
  exact siftEach_shown (fun c => stored_of_load logged keyed loaded) run

end Load

section Descent

theorem admits_mono {σ : Type} {r : Reader σ} (monotone : r.gate.Monotone) {s t : SecurityContext}
    {c : Concept} (more : s.containerReadable = true → t.containerReadable = true)
    (admitted : r.admits s c = true) : r.admits t c = true := by
  obtain ⟨kept, allowed⟩ := Bool.and_eq_true_iff.mp admitted
  exact Bool.and_eq_true_iff.mpr ⟨kept, monotone _ _ _ s t more allowed⟩

variable (monotone : r.gate.Monotone)

include monotone

/-- The children of a concept that is shown are contained in one that may be read. -/
theorem children_open (housed : r.view.contents.Housed r.partition) {parent : Concept}
    {pending : List Pending} (shown : r.Shown parent) (held : r.children parent = .ok pending) :
    ∀ next ∈ pending, next.Open r := by
  obtain ⟨there, security, -, admitted⟩ := shown
  have readable : r.gate.canRead r.actor parent r.partition .unrestricted = true :=
    (Bool.and_eq_true_iff.mp (admits_mono monotone (fun _ => rfl) admitted)).2
  intro next member id asked c stored kind
  unfold children at held
  split at held
  · cases held
    cases member
  · obtain ⟨context, -, rfl⟩ := Except.map_ok held
    obtain ⟨q, declared, rfl⟩ := List.mem_map.mp (List.mem_filter.mp member).1
    have container := housed parent.id parent there q declared id asked c stored kind
    refine ⟨r.gate.contextFor r.actor r.partition (some parent), ?_, readable⟩
    unfold contextOf
    rw [container]
    dsimp only
    rw [View.find?_eq, show r.view.contents.find? r.partition parent.id = some parent from there]
    rfl

theorem accept_disclosed (housed : r.view.contents.Housed r.partition) {s s' : Progress}
    {c : Concept} (disclosed : s.Disclosed r) (shown : r.Shown c) (run : r.accept s c = .ok s') :
    s'.Disclosed r := by
  unfold accept at run
  split at run
  · cases run
    exact disclosed
  · obtain ⟨pending, held, rfl⟩ := Except.map_ok run
    refine ⟨fun x member => ?_, fun next member => ?_⟩
    · rcases List.mem_append.mp member with former | last
      · exact disclosed.shown x former
      · exact List.mem_singleton.mp last ▸ shown
    · rcases List.mem_append.mp member with former | last
      · exact disclosed.pending next former
      · exact children_open monotone housed shown held next last

theorem acceptAll_disclosed (housed : r.view.contents.Housed r.partition) {cs : List Concept}
    {s s' : Progress} (disclosed : s.Disclosed r) (shown : ∀ c ∈ cs, r.Shown c)
    (run : cs.foldlM r.accept s = .ok s') : s'.Disclosed r := by
  induction cs generalizing s with
  | nil =>
    cases run
    exact disclosed
  | cons c rest ih =>
    obtain ⟨first, others⟩ := List.forall_mem_cons.mp shown
    rw [List.foldlM_cons] at run
    obtain ⟨middle, accepted, later⟩ := Except.bind_ok run
    exact ih (accept_disclosed monotone housed disclosed first accepted) others later

variable (logged : r.view.contents.Logged) (keyed : r.view.contents.Keyed)

include logged keyed

/-- What is answered of pending children is shown. -/
theorem resolve_shown {next : Pending} {ids : List ConceptId} {found : List Concept}
    (opened : next.Open r) (some : ids ⊆ next.ids)
    (run : r.resolve next.target ids next.security journal = (.ok found, journal')) :
    ∀ c ∈ found, r.Shown c := by
  obtain ⟨all, loaded, run⟩ := lift_bind_eq_ok_iff.mp run
  cases run
  intro c member
  obtain ⟨inside, admitted⟩ := List.mem_filter.mp member
  obtain ⟨id, asked, stored, kind⟩ := mem_load logged loaded inside
  obtain ⟨security, context, readable⟩ := opened id (some asked) c stored (kind _ rfl)
  exact ⟨stored_of_load logged keyed loaded inside, security, context,
    admits_mono monotone (fun _ => readable) admitted⟩

theorem descend_shown (housed : r.view.contents.Housed r.partition) {turns : Nat} {s : Progress}
    {found : List Concept} (disclosed : s.Disclosed r)
    (run : r.descend turns s journal = (.ok found, journal')) : ∀ c ∈ found, r.Shown c := by
  induction turns generalizing s journal with
  | zero =>
    obtain ⟨rfl, -⟩ := pure_eq_ok_iff.mp run
    exact disclosed.shown
  | succ turns ih =>
    unfold descend at run
    cases queued : s.pending with
    | nil =>
      rw [queued] at run
      obtain ⟨rfl, -⟩ := pure_eq_ok_iff.mp run
      exact disclosed.shown
    | cons next pending =>
      rw [queued] at run
      obtain ⟨here, _, resolved, run⟩ := bind_eq_ok_iff.mp run
      obtain ⟨s', accepted, run⟩ := lift_bind_eq_ok_iff.mp run
      obtain ⟨first, others⟩ := List.forall_mem_cons.mp (queued ▸ disclosed.pending)
      have shown := resolve_shown monotone logged keyed first (List.filter_subset_self _) resolved
      have rest : Progress.Disclosed r { s with pending } := ⟨disclosed.shown, others⟩
      exact ih (acceptAll_disclosed monotone housed rest shown accepted) run

/-- What a deep read answers is shown. -/
theorem deep_shown (housed : r.view.contents.Housed r.partition) {ids : List ConceptId}
    {found : List Concept} (run : r.deep ids none journal = (.ok found, journal')) :
    ∀ c ∈ found, r.Shown c := by
  obtain ⟨top, _, shallow, run⟩ := bind_eq_ok_iff.mp run
  obtain ⟨start, accepted, run⟩ := lift_bind_eq_ok_iff.mp run
  have none : Progress.Disclosed r {} := ⟨nofun, nofun⟩
  exact descend_shown monotone logged keyed housed
    (acceptAll_disclosed monotone housed none (shallow_shown logged keyed shallow) accepted) run

end Descent


end Reader

namespace Memory

/-- After every history a deep read succeeds, and every concept that it answers is what a shallow read
of its identifier answers, for every actor, all defaults and all options, as long as containment lists
name only what is contained in the concept that bears them. Under the standard registry they do. -/
theorem disclosure_after (visits : List Visit) (p : Partition) :
    ((∀ v ∈ visits, v.policy.registry = Registry.standard) →
      (Database.after visits).contents.Housed p) ∧
    ((Database.after visits).contents.Housed p → ∀ (defaults : ScopeDefaults) (actor : Actor)
      (ids : List ConceptId) (options : ReadOptions) (now now' : Instant), ∃ found,
      (({ gate := defaults.gate } : Policy).readDeep actor p ids options now
        (Database.after visits)).1.result = .ok found ∧
      ∀ c ∈ found, (({ gate := defaults.gate } : Policy).readShallow actor p [c.id] options now'
        (Database.after visits)).1.result = .ok [c]) := by
  refine ⟨fun standard => (forested_after visits standard p).housed, ?_⟩
  intro housed defaults actor ids options now now'
  have available := unavailable_after visits
  have logged := logged_after visits
  have keyed := (sound_after visits).keyed
  generalize Database.after visits = db at *
  let deep : Reader View := ⟨db.viewAt now, defaults.gate, actor, p, options⟩
  let shallow : Reader View := ⟨db.viewAt now', defaults.gate, actor, p, options⟩
  obtain ⟨found, journal, -, -, run⟩ :=
    (Reader.deep_inMode (r := deep) logged keyed options.mode ids none).found []
  have shown := Reader.deep_shown (r := deep) defaults.gate_monotone logged keyed housed run
  refine ⟨found, by rw [Policy.readDeep, reading_of_found _ _ actor p _ now available run], ?_⟩
  intro c member
  obtain ⟨journal', answered⟩ := Reader.Shown.shallow (r := shallow) logged (shown c member) []
  rw [Policy.readShallow, reading_of_found _ _ actor p _ now' available answered]

/-- Someone who may read a library where its site directory may be read. -/
def reader : Actor :=
  { id := .ofNat 9
    name := "reader"
    role.personRights :=
      .ofList [(.siteDirectory, .read), (.siteReferenceDataLibrary, .sameAsContainer)] }

/-- A site directory. -/
def directory (id : ConceptId) (excluded : List Uuid) : Concept :=
  { id, conceptType := .siteDirectory, accessOverride := ⟨SortedSet.ofMembers excluded, .empty⟩ }

/-- A library in a site directory. -/
def library (id directory : ConceptId) : Concept :=
  { id, conceptType := .siteReferenceDataLibrary, container := some directory }

/-- The visit that founds two site directories with a library each and then updates the second one. The
reader is shut out of the first one. -/
def parting (registry : Registry) : Visit :=
  .batch { registry }
    { foundingRequest with
      operations := [
        .create (directory (.ofNat 2) [reader.id]) none,
        .create (library (.ofNat 3) (.ofNat 2)) none,
        .create (directory (.ofNat 4) []) none,
        .create (library (.ofNat 5) (.ofNat 4)) none,
        .update (directory (.ofNat 4) [])] }
    default ⟨.ofNat, 10⟩

/-- The reader sees the library of the second directory in either way. -/
theorem disclosure_after_parting : ∃ found,
    (({ gate := ({} : ScopeDefaults).gate } : Policy).readDeep reader .siteDirectory [.ofNat 4] {}
      default (Database.after [parting .standard])).1.result = .ok found ∧
    found.map (·.id) = [.ofNat 4, .ofNat 5] ∧
    ∀ c ∈ found, (({ gate := ({} : ScopeDefaults).gate } : Policy).readShallow reader .siteDirectory
      [c.id] {} default (Database.after [parting .standard])).1.result = .ok [c] := by
  have housed := (disclosure_after [parting .standard] .siteDirectory).1 fun v member => by
    obtain rfl := List.mem_singleton.mp member
    rfl
  obtain ⟨found, answered, shown⟩ := (disclosure_after [parting .standard] .siteDirectory).2 housed {}
    reader [.ofNat 4] {} default default
  refine ⟨found, answered, ?_, shown⟩
  have ids : (({ gate := ({} : ScopeDefaults).gate } : Policy).readDeep reader .siteDirectory
      [.ofNat 4] {} default (Database.after [parting .standard])).1.result.toOption.map
        (·.map (·.id)) = some [.ofNat 4, .ofNat 5] := by decide +kernel
  rw [answered] at ids
  exact Option.some.inj ids

/-- The rule that every updated site directory lists the library of the first one. -/
def adopting : Registry :=
  ⟨[(.siteDirectory, fun occasion _ => match occasion with
    | .beforeUpdate _ => do
      Hook.setProperty Property.siteReferenceDataLibrary (.refList [.ofNat 3])
      pure {}
    | _ => pure {})]⟩

/-- A library that the second directory lists and the first one contains is answered by a deep read,
and denied by a shallow one. -/
theorem disclosure_after_adopting :
    (({ gate := ({} : ScopeDefaults).gate } : Policy).readDeep reader .siteDirectory [.ofNat 4] {}
      default (Database.after [parting adopting])).1.result.toOption.map (·.map (·.id)) =
        some [.ofNat 4, .ofNat 3] ∧
    (({ gate := ({} : ScopeDefaults).gate } : Policy).readShallow reader .siteDirectory [.ofNat 3] {}
      default (Database.after [parting adopting])).1.result.toOption = some [] := by
  decide +kernel

end Memory

end ConceptLedger
