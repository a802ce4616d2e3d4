import ConceptLedger.Proofs.Hook.Steady
import ConceptLedger.Proofs.Instant.Reading
import ConceptLedger.Proofs.Wire.Concept
import ConceptLedger.Wire.Operation
import ConceptLedger.Wire.Revision

/-!
The wire format round-trips. What is written of a value is read as the value, if its times are
legible. A JSON value that can be read has only legible times in it, so that reading leaves out what
the format does not keep, once: what is read is written and read again as the same value. JSON values
carry every float as it is, also those that their text does not have.
-/

namespace ConceptLedger

/-- An instant is legible if it is in the supported years, and in no leap second or in one that ends
a minute. -/
theorem Instant.legible_iff {t : Instant} :
    t.Legible ↔ t.inRange = true ∧ (t.nanos < 1000000000 ∨ t.seconds % 60 = 59) :=
  ⟨readChars?_bounds, fun bounds => read?_text bounds.1 bounds.2⟩

/-- A record whose times are legible. -/
structure RevisionRecord.Legible (r : RevisionRecord) : Prop where
  committed : r.committedAt.Legible
  state : ∀ c ∈ r.state, c.Legible

/-- A bound that is legible if it is an instant. -/
def AsOf.Legible : AsOf → Prop
  | .revision _ => True
  | .instant t => t.Legible

namespace Wire

variable {α : Type}

/-- A reader and a writer that fit each other. Legible values are read back from what is written of
them, and so is everything that was read, from whatever JSON value. -/
structure RoundTrips (read : Json → Option α) (write : α → Json) (legible : α → Prop) : Prop where
  back : ∀ v, legible v → read (write v) = some v
  stable : ∀ j v, read j = some v → read (write v) = some v

theorem RoundTrips.of_legible {read : Json → Option α} {write : α → Json} {legible : α → Prop}
    (back : ∀ v, legible v → read (write v) = some v)
    (reads : ∀ j v, read j = some v → legible v) : RoundTrips read write legible :=
  ⟨back, fun j v taken => back v (reads j v taken)⟩

section Fields

variable {read : Json → Option α} {write : α → Json}

theorem required_some {j : Json} {a : α} (taken : read j = some a) :
    required read (some j) = some a := taken

theorem optional_some {j : Json} (present : j ≠ .null) :
    optional read (some j) = (read j).map some := by
  unfold optional
  split
  · rename_i absent
    cases absent
  · rename_i same
    cases same
    exact absurd rfl present
  · rename_i same
    cases same
    rfl

/-- A field that is left out for no value is read back. -/
theorem optional_map {value : Option α} (back : ∀ a ∈ value, read (write a) = some a)
    (present : ∀ a, write a ≠ .null) : optional read (value.map write) = some value := by
  cases value with
  | none => rfl
  | some a => rw [Option.map_some, optional_some (present a), back a rfl, Option.map_some]

/-- A field that is `null` for no value is read back. -/
theorem optional_ofOption {value : Option α} (back : ∀ a ∈ value, read (write a) = some a)
    (present : ∀ a, write a ≠ .null) : optional read (some (ofOption write value)) = some value := by
  cases value with
  | none => rfl
  | some a =>
    show optional read (some (write a)) = some (some a)
    rw [optional_some (present a), back a rfl, Option.map_some]

/-- A value that was read under a field was read from what the field holds. -/
theorem read_of_required {field : Option Json} {a : α} (taken : required read field = some a) :
    ∃ j, read j = some a := by
  obtain ⟨j, -, taken⟩ := Option.bind_eq_some_iff.mp taken
  exact ⟨j, taken⟩

/-- A value that was read under an optional field was read from what the field holds. -/
theorem read_of_optional {field : Option Json} {value : Option α}
    (taken : optional read field = some value) : ∀ a ∈ value, ∃ j, read j = some a := by
  rintro a rfl
  unfold optional at taken
  split at taken
  · cases taken
  · cases taken
  · obtain ⟨a, taken, same⟩ := Option.map_eq_some_iff.mp taken
    cases same
    exact ⟨_, taken⟩

end Fields

/-- The values of a map were read from members of the object. -/
theorem read_of_map? {κ : Type} [Ord κ] [Std.TransOrd κ] [Std.LawfulEqOrd κ] [DecidableEq κ]
    {key : String → Option κ} {read : Json → Option α} {j : Json} {m : SortedMap κ α} {k : κ} {a : α}
    (taken : map? key read j = some m) (found : m.find? k = some a) : ∃ j, read j = some a := by
  obtain ⟨members, -, taken⟩ := Option.bind_eq_some_iff.mp taken
  obtain ⟨entries, listed, rfl⟩ := Option.map_eq_some_iff.mp taken
  obtain ⟨member, -, entry⟩ := (read_mapM listed).2 _ (SortedMap.mem_of_find?_ofList found)
  obtain ⟨k, -, entry⟩ := Option.bind_eq_some_iff.mp entry
  obtain ⟨a, read, same⟩ := Option.map_eq_some_iff.mp entry
  cases same
  exact ⟨_, read⟩

section Legible

variable {j : Json}

theorem legible_of_instant? {t : Instant} (taken : instant? j = some t) : t.Legible := by
  obtain ⟨s, -, read⟩ := Option.bind_eq_some_iff.mp taken
  exact Instant.read?_text_of_read? read

theorem legible_of_valueOfKind? {kind : String} {field : Option Json} {t : Instant}
    (taken : valueOfKind? kind field = some (.timestamp t)) : t.Legible := by
  unfold valueOfKind? at taken
  split at taken
  -- the only kind that holds a time
  case h_6 =>
    obtain ⟨t, taken, same⟩ := Option.map_eq_some_iff.mp taken
    cases same
    obtain ⟨j, taken⟩ := read_of_required taken
    exact legible_of_instant? taken
  case h_1 => split at taken <;> cases taken
  case h_10 => cases taken
  all_goals
    obtain ⟨_, -, other⟩ := Option.map_eq_some_iff.mp taken
    cases other

theorem legible_of_propertyValue? {t : Instant} (taken : propertyValue? j = some (.timestamp t)) :
    t.Legible := by
  unfold propertyValue? at taken
  split at taken
  · split at taken
    · cases taken
    · exact legible_of_valueOfKind? taken
  · cases taken

theorem legible_of_properties? {field : Option Json} {properties : Properties}
    (taken : defaulted properties? SortedMap.empty field = some properties) {name : String}
    {t : Instant} (found : properties.find? name = some (.timestamp t)) : t.Legible := by
  cases field with
  | none =>
    cases taken
    cases found
  | some j =>
    obtain ⟨j, taken⟩ := read_of_map? taken found
    exact legible_of_propertyValue? taken

theorem legible_of_concept? {c : Concept} (taken : concept? j = some c) : c.Legible := by
  unfold concept? at taken
  split at taken
  · obtain ⟨id, -, taken⟩ := Option.bind_eq_some_iff.mp taken
    obtain ⟨type, -, taken⟩ := Option.bind_eq_some_iff.mp taken
    obtain ⟨revision, -, taken⟩ := Option.bind_eq_some_iff.mp taken
    obtain ⟨container, -, taken⟩ := Option.bind_eq_some_iff.mp taken
    obtain ⟨properties, read, taken⟩ := Option.bind_eq_some_iff.mp taken
    obtain ⟨override, -, taken⟩ := Option.bind_eq_some_iff.mp taken
    cases taken
    exact fun name t found => legible_of_properties? read found
  · cases taken

theorem legible_of_operationOf? {kind : String} {operation : Operation}
    (taken : operationOf? kind j = some operation) : operation.Timely Instant.Legible := by
  unfold operationOf? at taken
  split at taken
  · split at taken
    · obtain ⟨c, read, taken⟩ := Option.bind_eq_some_iff.mp taken
      obtain ⟨key, -, taken⟩ := Option.bind_eq_some_iff.mp taken
      cases taken
      obtain ⟨j, read⟩ := read_of_required read
      exact legible_of_concept? read
    · cases taken
  · split at taken
    · obtain ⟨c, read, rfl⟩ := Option.map_eq_some_iff.mp taken
      obtain ⟨j, read⟩ := read_of_required read
      exact legible_of_concept? read
    · cases taken
  · split at taken
    · obtain ⟨id, -, taken⟩ := Option.bind_eq_some_iff.mp taken
      obtain ⟨type, -, taken⟩ := Option.bind_eq_some_iff.mp taken
      cases taken
      trivial
    · cases taken
  · cases taken

theorem legible_of_operation? {operation : Operation} (taken : operation? j = some operation) :
    operation.Timely Instant.Legible := by
  unfold operation? at taken
  split at taken
  · exact legible_of_operationOf? taken
  · split at taken
    · exact legible_of_operationOf? taken
    · cases taken
  · cases taken

theorem legible_of_revisionRecord? {r : RevisionRecord} (taken : revisionRecord? j = some r) :
    r.Legible := by
  unfold revisionRecord? at taken
  split at taken
  · obtain ⟨p, -, taken⟩ := Option.bind_eq_some_iff.mp taken
    obtain ⟨id, -, taken⟩ := Option.bind_eq_some_iff.mp taken
    obtain ⟨type, -, taken⟩ := Option.bind_eq_some_iff.mp taken
    obtain ⟨revision, -, taken⟩ := Option.bind_eq_some_iff.mp taken
    obtain ⟨state, read, taken⟩ := Option.bind_eq_some_iff.mp taken
    obtain ⟨time, committed, taken⟩ := Option.bind_eq_some_iff.mp taken
    cases taken
    obtain ⟨j, committed⟩ := read_of_required committed
    refine ⟨legible_of_instant? committed, fun c present => ?_⟩
    obtain ⟨j, read⟩ := read_of_optional read c present
    exact legible_of_concept? read
  · cases taken

theorem legible_of_asOf? {bound : AsOf} (taken : asOf? j = some bound) : bound.Legible := by
  unfold asOf? at taken
  split at taken
  · obtain ⟨n, -, rfl⟩ := Option.map_eq_some_iff.mp taken
    trivial
  · obtain ⟨t, read, rfl⟩ := Option.map_eq_some_iff.mp taken
    exact legible_of_instant? read
  · cases taken

end Legible

section Back

theorem instant?_ofInstant {t : Instant} (legible : t.Legible) :
    instant? (ofInstant t) = some t := by
  have read : Instant.read? t.text = some t := legible
  simp only [instant?, ofInstant, Json.string?, Option.bind_some, read]

@[simp] theorem accessRight?_ofAccessRight (r : AccessRight) :
    accessRight? (ofAccessRight r) = some r := by
  cases r <;> rfl

@[simp] theorem rights?_ofRights (rights : Rights) : rights? (ofRights rights) = some rights :=
  map?_ofMap rights ConceptType.ofName?_name fun _ r _ => accessRight?_ofAccessRight r

@[simp] theorem role?_ofRole (r : Role) : role? (ofRole r) = some r := by
  simp [role?, ofRole, Json.record?, Json.unique?, Json.valuesOf, defaulted, Json.string?]

@[simp] theorem partition?_ofPartition (p : Partition) : partition? (ofPartition p) = some p :=
  p.read?_name

theorem actor?_ofActor (a : Actor) : actor? (ofActor a) = some a := by
  have domain : optional uuid? (some (ofOption ofUuid a.activeDomain)) = some a.activeDomain :=
    optional_ofOption (fun id _ => uuid?_ofUuid id) fun _ other => nomatch other
  have names : set? Json.string? (ofSet .str a.participations) = some a.participations :=
    set?_ofSet a.participations fun _ => rfl
  simp [actor?, ofActor, actorFields, Json.record?, Json.unique?, Json.valuesOf, required, defaulted,
    Json.string?, Json.bool?, domain, names]

theorem operation?_ofOperation {operation : Operation}
    (legible : operation.Timely Instant.Legible) :
    operation? (ofOperation operation) = some operation := by
  cases operation with
  | create c key =>
    have concept := concept?_ofConcept legible
    have order : optional int64? (key.map ofInt64) = some key :=
      optional_map (fun n _ => int64?_ofInt64 n) fun _ other => nomatch other
    cases key <;>
      simp_all [operation?, ofOperation, operationOf?, Json.objOf, Json.record?, Json.unique?,
        Json.valuesOf, required]
  | update c =>
    have concept := concept?_ofConcept legible
    simp [operation?, ofOperation, operationOf?, Json.record?, Json.unique?, Json.valuesOf, required,
      concept]
  | delete id t =>
    simp [operation?, ofOperation, operationOf?, Json.record?, Json.unique?, Json.valuesOf, required]

theorem requestContext?_ofRequestContext (c : RequestContext) :
    requestContext? (ofRequestContext c) = some c := by
  obtain ⟨request, trace⟩ := c
  cases trace <;>
    simp [requestContext?, ofRequestContext, Json.objOf, Json.record?, Json.unique?, Json.valuesOf,
      required, optional, Json.string?]

theorem revisionRecord?_ofRevisionRecord {r : RevisionRecord} (legible : r.Legible) :
    revisionRecord? (ofRevisionRecord r) = some r := by
  have state : optional concept? (some (ofOption ofConcept r.state)) = some r.state :=
    optional_ofOption (fun c present => concept?_ofConcept (legible.state c present))
      fun _ other => nomatch other
  have time := instant?_ofInstant legible.committed
  have fields : (ofRevisionRecord r).record? recordFields =
      some [some (ofPartition r.partition), some (ofUuid r.conceptId),
        some (ofConceptType r.conceptType), some (ofWord r.revision),
        some (ofOption ofConcept r.state), some (ofInstant r.committedAt)] := by
    simp [ofRevisionRecord, recordFields, Json.record?, Json.unique?, Json.valuesOf]
  rw [revisionRecord?, fields]
  dsimp only
  rw [required_some (partition?_ofPartition r.partition), required_some (uuid?_ofUuid r.conceptId),
    required_some (conceptType?_ofConceptType r.conceptType), required_some (word?_ofWord r.revision),
    state, required_some time]
  rfl

theorem asOf?_ofAsOf {bound : AsOf} (legible : bound.Legible) :
    asOf? (ofAsOf bound) = some bound := by
  cases bound with
  | revision n => simp [asOf?, ofAsOf]
  | instant t => simp [asOf?, ofAsOf, instant?_ofInstant legible]

end Back

/-- Concepts, operations, actors, revision records, bounds and the names of requests round-trip. -/
theorem wire_round_trips :
    RoundTrips concept? ofConcept Concept.Legible ∧
      RoundTrips operation? ofOperation (Operation.Timely Instant.Legible) ∧
      RoundTrips actor? ofActor (fun _ => True) ∧
      RoundTrips revisionRecord? ofRevisionRecord RevisionRecord.Legible ∧
      RoundTrips asOf? ofAsOf AsOf.Legible ∧
      RoundTrips requestContext? ofRequestContext (fun _ => True) :=
  ⟨.of_legible (fun _ => concept?_ofConcept) fun _ _ => legible_of_concept?,
    .of_legible (fun _ => operation?_ofOperation) fun _ _ => legible_of_operation?,
    .of_legible (fun a _ => actor?_ofActor a) fun _ _ _ => trivial,
    .of_legible (fun _ => revisionRecord?_ofRevisionRecord) fun _ _ => legible_of_revisionRecord?,
    .of_legible (fun _ => asOf?_ofAsOf) fun _ _ => legible_of_asOf?,
    .of_legible (fun c _ => requestContext?_ofRequestContext c) fun _ _ _ => trivial⟩

end Wire

end ConceptLedger
