import ConceptLedger.Proofs.Concept.Refusal
import ConceptLedger.Proofs.Wire.Names
import ConceptLedger.Wire.Concept

/-!
The wire format of concepts can be read back. What is written of a concept gives the same concept
again, as long as the times in its properties are legible.
-/

namespace ConceptLedger

/-- An instant that can be read back from its text. -/
def Instant.Legible (t : Instant) : Prop := read? t.text = some t

/-- A concept whose times are legible. -/
abbrev Concept.Legible (c : Concept) : Prop := c.Timely Instant.Legible

theorem AccessOverride.eq_default {o : AccessOverride} (none : o.isEmpty = true) : o = {} := by
  obtain ⟨actors, domains⟩ := o
  obtain ⟨left, right⟩ := Bool.and_eq_true_iff.mp none
  have left : actors = SortedMap.empty := SortedMap.eq_empty left
  have right : domains = SortedMap.empty := SortedMap.eq_empty right
  rw [left, right]

namespace Wire

@[simp] theorem uuid?_ofUuid (u : Uuid) : uuid? (ofUuid u) = some u := by
  simp only [uuid?, ofUuid, Json.string?, Option.bind_some, u.read?_text]

@[simp] theorem conceptType?_ofConceptType (t : ConceptType) :
    conceptType? (ofConceptType t) = some t := by
  simp only [conceptType?, ofConceptType, named?, t.ofName?_name]

theorem unsigned?_toNat (n : UInt64) : Word.unsigned? n.toNat = some n := by
  have inRange : 0 ≤ (n.toNat : Int) ∧ (n.toNat : Int) < (Word.count : Nat) := by
    have bound := n.toNat_lt
    simp only [Word.count]
    omega
  unfold Word.unsigned?
  rw [if_pos inRange, Int.toNat_natCast, UInt64.ofNat_toNat]

@[simp] theorem word?_ofWord (n : UInt64) : word? (ofWord n) = some n := by
  have whole : (ofWord n).int? = some (n.toNat : Int) := rfl
  rw [word?, whole, Option.bind_some, unsigned?_toNat]

theorem optional_ofUuid (u : Uuid) : optional uuid? (some (ofUuid u)) = some (some u) := by
  have read : uuid? (.str u.text) = some u := uuid?_ofUuid u
  simp only [optional, ofUuid, read, Option.map_some]

@[simp] theorem int64?_ofInt64 (n : Int64) : int64? (ofInt64 n) = some n := by
  have above := n.le_toInt
  have below := n.toInt_lt
  simp only [int64?, ofInt64, Json.int?, Option.bind_some]
  rw [Word.signed?, if_pos ⟨by unfold Word.half; omega, by unfold Word.half; omega⟩]
  simp

section Collections

variable {α β : Type}

theorem mapM_some {f : α → Option β} {g : α → β} {l : List α}
    (values : ∀ a ∈ l, f a = some (g a)) : l.mapM f = some (l.map g) := by
  induction l with
  | nil => rfl
  | cons a rest ih =>
    rw [List.mapM_cons, values a List.mem_cons_self,
      ih fun b later => values b (List.mem_cons_of_mem _ later)]
    rfl

theorem list?_ofList {read : Json → Option α} {write : α → Json} {l : List α}
    (each : ∀ a ∈ l, read (write a) = some a) : list? read (ofList write l) = some l := by
  have values : (l.map write).mapM read = some (l.map id) := by
    rw [List.mapM_map]
    exact mapM_some each
  simpa only [list?, ofList, Json.items?, Option.bind_some, List.map_id] using values

theorem set?_ofSet [Ord α] [Std.TransOrd α] [Std.LawfulEqOrd α] [DecidableEq α]
    {read : Json → Option α} {write : α → Json} (s : SortedSet α)
    (each : ∀ a, read (write a) = some a) : set? read (ofSet write s) = some s := by
  rw [set?, ofSet, list?_ofList fun a _ => each a, Option.map_some,
    SortedMap.ofMembers_elements]

theorem map?_ofMap [Ord α] [Std.TransOrd α] [Std.LawfulEqOrd α] [DecidableEq α]
    {name : α → String} {key : String → Option α} {read : Json → Option β} {write : β → Json}
    (m : SortedMap α β) (keys : ∀ a, key (name a) = some a)
    (each : ∀ a b, m.find? a = some b → read (write b) = some b) :
    map? key read (ofMap name write m) = some m := by
  have entries : ((m.toList.map fun e => (name e.1, write e.2)).mapM fun e =>
      (key e.1).bind fun k => (read e.2).map (k, ·)) = some m.toList := by
    have listed : m.toList.mapM ((fun e => (key e.1).bind fun k => (read e.2).map (k, ·)) ∘
        fun e => (name e.1, write e.2)) = some (m.toList.map id) := by
      refine mapM_some fun e member => ?_
      simp [keys, each e.1 e.2 (SortedMap.find?_eq_some_iff.mpr member)]
    rw [List.mapM_map, listed, List.map_id]
  simp only [map?, ofMap, Json.members?, Option.bind_some, entries, Option.map_some,
    SortedMap.ofList_toList]

end Collections

@[simp] theorem orderedItem?_ofOrderedItem (i : OrderedItem) :
    orderedItem? (ofOrderedItem i) = some i := by
  simp [orderedItem?, ofOrderedItem, Json.record?, Json.unique?, Json.valuesOf, required]

/-- A value is read back, if it is a time then a legible one. -/
theorem propertyValue?_ofPropertyValue (value : PropertyValue)
    (legible : ∀ t, value = .timestamp t → t.Legible) :
    propertyValue? (ofPropertyValue value) = some value := by
  have items (items : List OrderedItem) :
      list? orderedItem? (ofList ofOrderedItem items) = some items :=
    list?_ofList fun i _ => orderedItem?_ofOrderedItem i
  have ids (ids : List ConceptId) : list? uuid? (ofList ofUuid ids) = some ids :=
    list?_ofList fun id _ => uuid?_ofUuid id
  have time (t : Instant) (same : value = .timestamp t) : instant? (ofInstant t) = some t := by
    have read : Instant.read? t.text = some t := legible t same
    simp only [instant?, ofInstant, Json.string?, Option.bind_some, read]
  cases value with
  | timestamp t =>
    simp [propertyValue?, ofPropertyValue, Json.record?, Json.unique?, Json.valuesOf, valueOfKind?,
      required, time t rfl]
  | _ =>
    simp [propertyValue?, ofPropertyValue, Json.record?, Json.unique?, Json.valuesOf, valueOfKind?,
      required, Json.bool?, Json.string?, float?, Json.items?, items, ids]

theorem properties?_ofProperties (properties : Properties)
    (legible : ∀ name t, properties.find? name = some (.timestamp t) → t.Legible) :
    properties? (ofProperties properties) = some properties :=
  map?_ofMap properties (fun _ => rfl) fun name value found =>
    propertyValue?_ofPropertyValue value fun t same => legible name t (same ▸ found)

@[simp] theorem accessOverride?_ofAccessOverride (o : AccessOverride) :
    accessOverride? (ofAccessOverride o) = some o := by
  obtain ⟨actors, domains⟩ := o
  have sets (s : SortedSet Uuid) : set? uuid? (ofSet ofUuid s) = some s :=
    set?_ofSet s uuid?_ofUuid
  cases left : actors.isEmpty <;> cases right : domains.isEmpty <;>
    simp [accessOverride?, ofAccessOverride, Json.objOf, Json.memberIf, Json.record?, Json.unique?,
      Json.valuesOf, defaulted, sets, left, right]
  case false.true => exact (SortedMap.eq_empty right).symm
  case true.false => exact (SortedMap.eq_empty left).symm
  case true.true => exact ⟨(SortedMap.eq_empty left).symm, (SortedMap.eq_empty right).symm⟩

/-- A concept is read back. -/
theorem concept?_ofConcept {c : Concept} (legible : c.Legible) :
    concept? (ofConcept c) = some c := by
  obtain ⟨id, type, revision, container, properties, override⟩ := c
  have read := properties?_ofProperties properties legible
  have fields : (ofConcept ⟨id, type, revision, container, properties, override⟩).record?
      conceptFields = some [some (ofUuid id), some (ofConceptType type), some (ofWord revision),
        container.map ofUuid, some (ofProperties properties),
        if override.isEmpty then none else some (ofAccessOverride override)] := by
    cases container <;> cases open? : override.isEmpty <;>
      simp [ofConcept, conceptFields, Json.objOf, Json.memberIf, Json.record?, Json.unique?,
        Json.valuesOf, open?]
  have within : optional uuid? (container.map ofUuid) = some container := by
    cases container with
    | none => rfl
    | some parent => exact optional_ofUuid parent
  have closed : defaulted accessOverride? {}
      (if override.isEmpty then none else some (ofAccessOverride override)) = some override := by
    split
    · rename_i none
      rw [AccessOverride.eq_default none]
      rfl
    · exact accessOverride?_ofAccessOverride override
  have counted : defaulted word? 0 (some (ofWord revision)) = some revision := by
    rw [defaulted, word?_ofWord]
  have listed : defaulted properties? SortedMap.empty (some (ofProperties properties)) =
    some properties := read
  rw [concept?, fields]
  simp [required, within, closed, counted, listed]

end Wire

end ConceptLedger
