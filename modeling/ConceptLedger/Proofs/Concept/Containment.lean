import ConceptLedger.Concept.Containment
import Mathlib.Data.List.Nodup

/-!
How the operations on containment lists act on single properties. Through all of them a concept
keeps everything but its properties, and among these the ones that are no containment lists.
-/

namespace ConceptLedger.Concept

open PropertyValue

/-- A concept without its properties. -/
def bare (c : Concept) : Concept := { c with properties := SortedMap.empty }

theorem bare_eq_iff {a b : Concept} : a.bare = b.bare ↔
    a.id = b.id ∧ a.conceptType = b.conceptType ∧ a.revisionNumber = b.revisionNumber ∧
      a.container = b.container ∧ a.accessOverride = b.accessOverride := by
  simp [bare]

theorem containment_eq_of_name {t : ConceptType} {p q : Containment} (hp : p ∈ t.containment)
    (hq : q ∈ t.containment) (same : p.name = q.name) : p = q :=
  List.inj_on_of_nodup_map t.containment_names_nodup hp hq same

theorem containment_eq_of_target {t : ConceptType} {p q : Containment} (hp : p ∈ t.containment)
    (hq : q ∈ t.containment) (same : p.target = q.target) : p = q :=
  List.inj_on_of_nodup_map t.containment_targets_nodup hp hq same

/-- A concept has the right shape when each of its containment properties and each of its
associations has. -/
theorem checkShape_ok_iff {c : Concept} : c.checkShape = .ok () ↔
    (∀ p ∈ c.conceptType.containment, containmentComplaint? p (c.property? p.name) = none) ∧
      ∀ a ∈ c.conceptType.associations, associationComplaint? (c.property? a.name) = none := by
  unfold checkShape shapeComplaint?
  constructor
  · intro checked
    split at checked
    · cases checked
    · rename_i quiet
      simpa [List.findSome?_eq_none_iff] using quiet
  · rintro ⟨lists, references⟩
    have quiet : (c.conceptType.containment.findSome? fun p =>
        (containmentComplaint? p (c.property? p.name)).map (p.name, ·)).or
        (c.conceptType.associations.findSome? fun p =>
          (associationComplaint? (c.property? p.name)).map (p.name, ·)) = none := by
      simpa [List.findSome?_eq_none_iff] using ⟨lists, references⟩
    rw [quiet]

theorem members_congr {c c' : Concept} {p : Containment}
    (same : c'.property? p.name = c.property? p.name) : c'.members p = c.members p := by
  simp only [members, entries, same]

theorem mem_childIds {c : Concept} {x : ConceptId} :
    x ∈ c.childIds ↔ ∃ p ∈ c.conceptType.containment, x ∈ c.members p := List.mem_flatMap

/-- Setting some properties of a concept in order, each to a value that may depend on the
former one. -/
theorem property?_foldl_set {f : Concept → Containment → Concept}
    {g : Containment → Option PropertyValue → Option PropertyValue}
    (sets : ∀ c p name, (f c p).property? name =
      if name = p.name then g p (c.property? name) else c.property? name)
    {l : List Containment} (nodup : (l.map (·.name)).Nodup) (c : Concept) :
    (∀ p ∈ l, (l.foldl f c).property? p.name = g p (c.property? p.name)) ∧
      ∀ name, (∀ p ∈ l, p.name ≠ name) → (l.foldl f c).property? name = c.property? name := by
  induction l generalizing c with
  | nil => simp
  | cons q rest ih =>
    obtain ⟨apart, tail⟩ := List.nodup_cons.mp nodup
    obtain ⟨inside, outside⟩ := ih tail (f c q)
    refine ⟨fun p member => ?_, fun name others => ?_⟩
    · rcases List.mem_cons.mp member with rfl | later
      · have first : ∀ p' ∈ rest, p'.name ≠ p.name := fun p' member' same =>
          apart (List.mem_map.mpr ⟨p', member', same⟩)
        rw [List.foldl_cons, outside p.name first, sets, if_pos rfl]
      · have other : p.name ≠ q.name := fun same => apart (List.mem_map.mpr ⟨p, later, same⟩)
        rw [List.foldl_cons, inside p later, sets, if_neg other]
    · rw [List.foldl_cons, outside name fun p later => others p (List.mem_cons_of_mem _ later), sets,
        if_neg (others q List.mem_cons_self).symm]

theorem foldl_bare {α : Type} {f : Concept → α → Concept} (step : ∀ c a, (f c a).bare = c.bare)
    (l : List α) (c : Concept) : (l.foldl f c).bare = c.bare := by
  induction l generalizing c with
  | nil => rfl
  | cons a rest ih => exact (ih (f c a)).trans (step c a)

theorem withoutChildren_bare (c : Concept) : c.withoutChildren.bare = c.bare :=
  foldl_bare (fun (c : Concept) (p : Containment) => (rfl : (c.setProperty p.name _).bare = _)) _ c

@[simp] theorem withoutChildren_id (c : Concept) : c.withoutChildren.id = c.id :=
  (bare_eq_iff.mp (withoutChildren_bare c)).1

@[simp] theorem withoutChildren_conceptType (c : Concept) :
    c.withoutChildren.conceptType = c.conceptType :=
  (bare_eq_iff.mp (withoutChildren_bare c)).2.1

@[simp] theorem withoutChildren_container (c : Concept) :
    c.withoutChildren.container = c.container :=
  (bare_eq_iff.mp (withoutChildren_bare c)).2.2.2.1

theorem property?_withoutChildren {c : Concept} {p : Containment}
    (member : p ∈ c.conceptType.containment) :
    c.withoutChildren.property? p.name = some (emptyList p) :=
  (property?_foldl_set (g := fun p _ => some (emptyList p))
    (fun c p name => property?_setProperty c p.name name _)
    c.conceptType.containment_names_nodup c).1 p member

theorem property?_withoutChildren_other {c : Concept} {name : String}
    (other : ∀ p ∈ c.conceptType.containment, p.name ≠ name) :
    c.withoutChildren.property? name = c.property? name :=
  (property?_foldl_set (g := fun p _ => some (emptyList p))
    (fun c p name => property?_setProperty c p.name name _)
    c.conceptType.containment_names_nodup c).2 name other

theorem property?_detachFrom (child : ConceptId) (c : Concept) (p : Containment) (name : String) :
    (detachFrom child c p).property? name =
      if name = p.name then (c.property? name).map (withoutChild child) else c.property? name := by
  unfold detachFrom
  cases stored : c.property? p.name with
  | some value =>
    by_cases same : name = p.name
    · simp [same, stored]
    · simp [property?_setProperty, same]
  | none =>
    by_cases same : name = p.name <;> simp [same, stored]

theorem detach_bare (c : Concept) (child : ConceptId) : (c.detach child).bare = c.bare := by
  refine foldl_bare (fun c p => ?_) _ c
  unfold detachFrom
  split <;> rfl

@[simp] theorem detach_id (c : Concept) (child : ConceptId) : (c.detach child).id = c.id :=
  (bare_eq_iff.mp (detach_bare c child)).1

@[simp] theorem detach_conceptType (c : Concept) (child : ConceptId) :
    (c.detach child).conceptType = c.conceptType :=
  (bare_eq_iff.mp (detach_bare c child)).2.1

@[simp] theorem detach_container (c : Concept) (child : ConceptId) :
    (c.detach child).container = c.container :=
  (bare_eq_iff.mp (detach_bare c child)).2.2.2.1

theorem property?_detach {c : Concept} {child : ConceptId} {p : Containment}
    (member : p ∈ c.conceptType.containment) :
    (c.detach child).property? p.name = (c.property? p.name).map (withoutChild child) :=
  (property?_foldl_set (g := fun _ value => value.map (withoutChild child))
    (property?_detachFrom child) c.conceptType.containment_names_nodup c).1 p member

theorem property?_detach_other {c : Concept} {child : ConceptId} {name : String}
    (other : ∀ p ∈ c.conceptType.containment, p.name ≠ name) :
    (c.detach child).property? name = c.property? name :=
  (property?_foldl_set (g := fun _ value => value.map (withoutChild child))
    (property?_detachFrom child) c.conceptType.containment_names_nodup c).2 name other

/-- Concepts with the same properties are the same, if they agree in everything else. -/
theorem eq_of_property? {c c' : Concept} (bare : c'.bare = c.bare)
    (same : ∀ name, c'.property? name = c.property? name) : c' = c := by
  obtain ⟨id, type, revision, container, override⟩ := bare_eq_iff.mp bare
  have properties : c'.properties = c.properties := SortedMap.ext_find? same
  cases c
  cases c'
  simp_all

/-- A list that does not name a child is left as it is. -/
theorem map_withoutChild {c : Concept} {child : ConceptId} {p : Containment}
    (unlisted : child ∉ c.members p) :
    (c.property? p.name).map (withoutChild child) = c.property? p.name := by
  unfold members entries at unlisted
  cases held : c.property? p.name with
  | none => rfl
  | some value =>
    rw [held] at unlisted
    cases value with
    | refList ids =>
      have kept : ids.filter (· ≠ child) = ids := by
        refine List.filter_eq_self.mpr fun x member => decide_eq_true ?_
        rintro rfl
        exact unlisted (by simpa using member)
      simp only [Option.map_some, withoutChild, kept]
    | orderedRefList items =>
      have kept : items.filter (·.value ≠ child) = items := by
        refine List.filter_eq_self.mpr fun i member => decide_eq_true ?_
        rintro rfl
        exact unlisted (by simpa using ⟨i, member, rfl⟩)
      simp only [Option.map_some, withoutChild, kept]
    | _ => rfl

/-- A child that is named in one list alone is taken out of that list alone. -/
theorem detach_eq {c : Concept} {child : ConceptId} {p : Containment} {value : PropertyValue}
    (declared : p ∈ c.conceptType.containment) (held : c.property? p.name = some value)
    (alone : ∀ q ∈ c.conceptType.containment, q ≠ p → child ∉ c.members q) :
    c.detach child = c.setProperty p.name (withoutChild child value) := by
  refine eq_of_property? (detach_bare c child) fun name => ?_
  by_cases list : ∃ q ∈ c.conceptType.containment, q.name = name
  · obtain ⟨q, member, rfl⟩ := list
    rw [property?_detach member]
    by_cases same : q = p
    · rw [same, held, property?_setProperty_self]
      rfl
    · have apart : q.name ≠ p.name := fun names => same (containment_eq_of_name member declared names)
      rw [property?_setProperty_ne _ _ apart, map_withoutChild (alone q member same)]
  · have other : ∀ q ∈ c.conceptType.containment, q.name ≠ name := fun q member same =>
      list ⟨q, member, same⟩
    rw [property?_detach_other other, property?_setProperty_ne _ _ (other p declared).symm]

theorem mem_members_detach {c : Concept} {child x : ConceptId} {p : Containment}
    (member : p ∈ c.conceptType.containment) :
    x ∈ (c.detach child).members p ↔ x ∈ c.members p ∧ x ≠ child := by
  unfold members entries
  rw [property?_detach member]
  cases c.property? p.name with
  | none => simp
  | some value => cases value <;> simp [withoutChild]; grind

theorem sameMembers_iff {a b : List ConceptId} :
    sameMembers a b = true ↔ ∀ x, x ∈ a ↔ x ∈ b := by
  simp only [sameMembers, decide_eq_true_eq, SortedSet.ofMembers_eq_iff]

theorem attach_ok {container child extended : Concept} {orderKey : Option Int64}
    (run : container.attach child orderKey = .ok extended) :
    ∃ p ∈ container.conceptType.containment, p.target = child.conceptType ∧
      ∃ value, extendedList container p child.id orderKey = .ok value ∧
        extended = container.setProperty p.name value := by
  unfold attach at run
  cases fits : container.conceptType.containmentFor? child.conceptType with
  | none =>
    rw [fits] at run
    cases run
  | some p =>
    rw [fits] at run
    obtain ⟨member, target⟩ := ConceptType.containmentFor?_eq_some_iff.mp fits
    cases list : extendedList container p child.id orderKey with
    | error e =>
      simp only [list, Except.map] at run
      cases run
    | ok value =>
      simp only [list, Except.map, Except.ok.injEq] at run
      exact ⟨p, member, target, value, list, run.symm⟩

theorem members_of_ordered {c : Concept} {p : Containment} (ordered : p.ordered = true)
    (shaped : containmentComplaint? p (c.property? p.name) = none) :
    c.members p = (orderedItems (c.property? p.name)).map (·.value) := by
  unfold members entries
  cases stored : c.property? p.name with
  | none => rfl
  | some value =>
    rw [stored] at shaped
    cases value <;> simp_all [containmentComplaint?, orderedItems, Function.comp_def]

theorem members_of_unordered {c : Concept} {p : Containment} (unordered : p.ordered = false)
    (shaped : containmentComplaint? p (c.property? p.name) = none) :
    c.members p = ((c.property? p.name).map referenced).getD [] := by
  unfold members entries
  cases stored : c.property? p.name with
  | none => rfl
  | some value =>
    rw [stored] at shaped
    cases value <;> simp_all [containmentComplaint?, referenced, Function.comp_def]

/-- How a containment list is extended: at its end, or by a key that is not taken, in the order of keys. -/
theorem extendedList_cases {container : Concept} {p : Containment} {child : ConceptId}
    {orderKey : Option Int64} {value : PropertyValue}
    (run : extendedList container p child orderKey = .ok value) :
    (p.ordered = false ∧ orderKey = none ∧
      value = refList (((container.property? p.name).map referenced).getD [] ++ [child])) ∨
    (p.ordered = true ∧ ∃ key, nextKey? orderKey (orderedItems (container.property? p.name)) = some key ∧
      (∀ i ∈ orderedItems (container.property? p.name), i.key ≠ key) ∧
      value = orderedRefList (sortByKey (·.key)
        (orderedItems (container.property? p.name) ++ [⟨key, child⟩]))) := by
  unfold extendedList at run
  cases ordered : p.ordered with
  | true =>
    simp only [ordered, if_true] at run
    split at run
    · cases run
    rename_i key next
    split at run
    · cases run
    rename_i free
    cases run
    exact .inr ⟨rfl, key, next, by simpa using free, rfl⟩
  | false =>
    simp only [ordered, Bool.false_eq_true, if_false] at run
    split at run
    · cases run
    rename_i unkeyed
    cases run
    exact .inl ⟨rfl, by simpa using unkeyed, rfl⟩

/-- An extended list is of the declared kind and has the one new member. -/
theorem extendedList_ok {container : Concept} {p : Containment} {child : ConceptId}
    {orderKey : Option Int64} {value : PropertyValue}
    (shaped : containmentComplaint? p (container.property? p.name) = none)
    (run : extendedList container p child orderKey = .ok value) :
    containmentComplaint? p (some value) = none ∧
      ∀ x, x ∈ (container.setProperty p.name value).members p ↔
        x ∈ container.members p ∨ x = child := by
  obtain ⟨unordered, -, rfl⟩ | ⟨ordered, key, -, -, rfl⟩ := extendedList_cases run
  · have kind : containmentComplaint? p (some (refList
        (((container.property? p.name).map referenced).getD [] ++ [child]))) = none := by
      simp [containmentComplaint?, unordered]
    refine ⟨kind, fun x => ?_⟩
    have after := members_of_unordered (c := container.setProperty p.name _) unordered
      (by rw [property?_setProperty_self]; exact kind)
    rw [after, members_of_unordered unordered shaped, property?_setProperty_self]
    simp [referenced]
  · have kind : containmentComplaint? p (some (orderedRefList (sortByKey (·.key)
        (orderedItems (container.property? p.name) ++ [⟨key, child⟩])))) = none := by
      simp [containmentComplaint?, ordered]
    refine ⟨kind, fun x => ?_⟩
    have after := members_of_ordered (c := container.setProperty p.name _) ordered
      (by rw [property?_setProperty_self]; exact kind)
    rw [after, members_of_ordered ordered shaped, property?_setProperty_self, orderedItems,
      ((sortByKey_perm _ _).map _).mem_iff]
    simp

/-- Carrying one list over sets at most the property of that list. -/
theorem withStoredList_ok {former c c' : Concept} {p : Containment}
    (run : withStoredList former c p = .ok c') :
    c'.bare = c.bare ∧
      (∀ name, name ≠ p.name → c'.property? name = c.property? name) ∧
      ((c.property? p.name = none ∧ c'.property? p.name = former.property? p.name) ∨
        (c'.property? p.name = c.property? p.name ∧ c.property? p.name ≠ none ∧
          ∀ x, x ∈ c.members p ↔ x ∈ former.members p)) := by
  unfold withStoredList at run
  cases given : c.property? p.name with
  | none =>
    simp only [given] at run
    cases stored : former.property? p.name with
    | none =>
      simp only [stored] at run
      cases run
      exact ⟨rfl, fun _ _ => rfl, Or.inl ⟨rfl, given⟩⟩
    | some value =>
      simp only [stored] at run
      cases run
      exact ⟨rfl, fun name apart => property?_setProperty_ne c value apart,
        Or.inl ⟨rfl, property?_setProperty_self c p.name value⟩⟩
  | some value =>
    simp only [given] at run
    split at run
    · rename_i same
      cases run
      exact ⟨rfl, fun _ _ => rfl, Or.inr ⟨given, by simp, sameMembers_iff.mp same⟩⟩
    · cases run

/-- What an update makes of its containment lists: those that it gives keep their members and
those that it leaves out are the stored ones. -/
theorem foldlM_withStoredList_ok {former : Concept} {l : List Containment}
    (nodup : (l.map (·.name)).Nodup) {c c' : Concept}
    (run : l.foldlM (withStoredList former) c = .ok c') :
    c'.bare = c.bare ∧
      (∀ name, (∀ p ∈ l, p.name ≠ name) → c'.property? name = c.property? name) ∧
      ∀ p ∈ l, (c.property? p.name = none ∧ c'.property? p.name = former.property? p.name) ∨
        (c'.property? p.name = c.property? p.name ∧ c.property? p.name ≠ none ∧
          ∀ x, x ∈ c.members p ↔ x ∈ former.members p) := by
  induction l generalizing c with
  | nil =>
    cases run
    exact ⟨rfl, fun _ _ => rfl, fun p member => nomatch member⟩
  | cons q rest ih =>
    obtain ⟨apart, tail⟩ := List.nodup_cons.mp nodup
    rw [List.foldlM_cons] at run
    cases first : withStoredList former c q with
    | error e =>
      rw [first] at run
      cases run
    | ok middle =>
      rw [first] at run
      obtain ⟨bare₁, others₁, here₁⟩ := withStoredList_ok first
      obtain ⟨bare₂, others₂, here₂⟩ := ih tail run
      have later : ∀ p ∈ rest, p.name ≠ q.name := fun p member same =>
        apart (List.mem_map.mpr ⟨p, member, same⟩)
      refine ⟨bare₂.trans bare₁, fun name distinct => ?_, fun p member => ?_⟩
      · rw [others₂ name fun p inRest => distinct p (List.mem_cons_of_mem _ inRest),
          others₁ name (distinct q List.mem_cons_self).symm]
      · rcases List.mem_cons.mp member with rfl | inRest
        · rw [others₂ p.name later]
          exact here₁
        · have before := others₁ p.name (later p inRest)
          have lists : middle.members p = c.members p := members_congr before
          rw [← before, ← lists]
          exact here₂ p inRest

theorem withStoredChildren_ok {former c c' : Concept}
    (run : withStoredChildren former c = .ok c') :
    c'.bare = c.bare ∧
      (∀ name, (∀ p ∈ c.conceptType.containment, p.name ≠ name) →
        c'.property? name = c.property? name) ∧
      ∀ p ∈ c.conceptType.containment,
        (c.property? p.name = none ∧ c'.property? p.name = former.property? p.name) ∨
        (c'.property? p.name = c.property? p.name ∧ c.property? p.name ≠ none ∧
          ∀ x, x ∈ c.members p ↔ x ∈ former.members p) :=
  foldlM_withStoredList_ok c.conceptType.containment_names_nodup run

/-- A state that was submitted with the stored lists is left as it is. -/
theorem withStoredChildren_eq {former c c' : Concept}
    (lists : ∀ q ∈ c.conceptType.containment, c.property? q.name = former.property? q.name)
    (run : withStoredChildren former c = .ok c') : c' = c := by
  obtain ⟨bare, others, given⟩ := withStoredChildren_ok run
  refine eq_of_property? bare fun name => ?_
  by_cases list : ∃ q ∈ c.conceptType.containment, q.name = name
  · obtain ⟨q, member, rfl⟩ := list
    rcases given q member with ⟨-, stored⟩ | ⟨same, -, -⟩
    · rw [stored, lists q member]
    · exact same
  · exact others name fun q member same => list ⟨q, member, same⟩

end ConceptLedger.Concept
