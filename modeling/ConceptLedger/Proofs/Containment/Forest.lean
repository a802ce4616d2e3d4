import ConceptLedger.Proofs.Concept.Containment
import ConceptLedger.Proofs.Containment.Outline

/-!
The concepts of a partition as a forest: the containment lists of every concept hold exactly those
that name it as their container. Replacing a concept by one with the same lists, adding one to the
list of its container and cutting off a branch lead from forests to forests.
-/

namespace ConceptLedger

/-- A concept of the right shape, with a list in every containment property. -/
structure Concept.Complete (c : Concept) : Prop where
  shape : c.checkShape = .ok ()
  lists : ∀ q ∈ c.conceptType.containment, (c.property? q.name).isSome = true

/-- A concept that holds a list of the right kind in a containment property. -/
def Concept.HoldsList (c : Concept) (q : Containment) : Prop :=
  (q.ordered = false ∧ ∃ ids, c.property? q.name = some (.refList ids)) ∨
    (q.ordered = true ∧ ∃ items, c.property? q.name = some (.orderedRefList items))

theorem Concept.Complete.holdsList {c : Concept} (complete : c.Complete) {q : Containment}
    (member : q ∈ c.conceptType.containment) : c.HoldsList q := by
  obtain ⟨value, held⟩ := Option.isSome_iff_exists.mp (complete.lists q member)
  have kind := (Concept.checkShape_ok_iff.mp complete.shape).1 q member
  unfold HoldsList
  rw [held] at kind ⊢
  cases ordered : q.ordered <;> cases value <;> simp_all [containmentComplaint?]

/-- A concept that can stand in for another one: it differs from it at most in its revision, in the
order of its lists and in properties that are no containment lists. -/
structure Concept.StandsFor (c' c : Concept) : Prop where
  id : c'.id = c.id
  outline : c'.outline = c.outline
  members : ∀ q ∈ c.conceptType.containment, ∀ x, x ∈ c'.members q ↔ x ∈ c.members q
  complete : c'.Complete

namespace Forest

/-- The outlines of concepts. -/
def outlines (f : ConceptId → Option Concept) : ConceptId → Option Outline :=
  fun x => (f x).map Concept.outline

/-- The concepts with one more in place. -/
def place (f : ConceptId → Option Concept) (c : Concept) : ConceptId → Option Concept :=
  fun x => if x = c.id then some c else f x

/-- The concepts without those of a branch. -/
noncomputable def cut (f : ConceptId → Option Concept) (top : ConceptId) :
    ConceptId → Option Concept :=
  open Classical in fun x => if Outline.Within (outlines f) top x then none else f x

end Forest

open Forest

/-- Concepts whose containers and containment lists agree. -/
structure Forest (f : ConceptId → Option Concept) : Prop where
  keyed : ∀ x c, f x = some c → c.id = x
  ordered : Outline.Ordered (outlines f)
  listed : ∀ y parent, f y = some parent → ∀ q ∈ parent.conceptType.containment, ∀ x,
    x ∈ parent.members q ↔ outlines f x = some ⟨q.target, some y⟩
  complete : ∀ x c, f x = some c → c.Complete

namespace Forest

variable {f : ConceptId → Option Concept} {c c' parent parent' : Concept} {x y top : ConceptId}

theorem outlines_eq_some_iff {u : Outline} :
    outlines f x = some u ↔ ∃ c, f x = some c ∧ c.outline = u := Option.map_eq_some_iff

theorem outlines_place (f : ConceptId → Option Concept) (c : Concept) :
    outlines (place f c) = Outline.set (outlines f) c.id c.outline := by
  funext x
  unfold outlines place Outline.set
  split <;> rfl

theorem outlines_cut (f : ConceptId → Option Concept) (top : ConceptId) :
    outlines (cut f top) = Outline.cut (outlines f) top := by
  funext x
  show (cut f top x).map Concept.outline = Outline.cut (outlines f) top x
  unfold cut Outline.cut
  split <;> rfl

theorem outlines_place_of_eq (stored : f c'.id = some c) (same : c'.outline = c.outline) :
    outlines (place f c') = outlines f := by
  funext x
  rw [outlines_place, Outline.set]
  split
  · rename_i here
    rw [here, outlines, stored, same]
    rfl
  · rfl

theorem cut_eq_some_iff :
    cut f top x = some c ↔ ¬ Outline.Within (outlines f) top x ∧ f x = some c := by
  unfold cut
  split <;> simp_all

theorem place_eq_some_iff : place f c x = some c' ↔ (x = c.id ∧ c = c') ∨ (x ≠ c.id ∧ f x = some c') := by
  unfold place
  split <;> simp_all

/-- Nothing changes when a stored concept is put in place again. -/
theorem place_self (stored : f c.id = some c) : place f c = f := by
  funext x
  unfold place
  split
  · rename_i here
    rw [here, stored]
  · rfl

theorem empty : Forest fun _ => none where
  keyed _ _ stored := nomatch stored
  ordered := Outline.Ordered.empty
  listed _ _ stored := nomatch stored
  complete _ _ stored := nomatch stored

/-- The container of a concept lists it. -/
theorem container_stored (forest : Forest f) (stored : f x = some c) (container : c.container = some y) :
    ∃ parent q, f y = some parent ∧ parent.conceptType.containmentFor? c.conceptType = some q := by
  obtain ⟨v, there, fits⟩ := forest.ordered.container_stored
    (outlines_eq_some_iff.mpr ⟨c, stored, rfl⟩) (y := y) container
  obtain ⟨parent, stored', rfl⟩ := outlines_eq_some_iff.mp there
  obtain ⟨q, fits⟩ := Option.isSome_iff_exists.mp fits
  exact ⟨parent, q, stored', fits⟩

theorem replaced (forest : Forest f) (stored : f x = some c) (stands : c'.StandsFor c) :
    Forest (place f c') := by
  have here : c'.id = x := stands.id.trans (forest.keyed x c stored)
  subst here
  have outlines := outlines_place_of_eq stored stands.outline
  have types : c'.conceptType = c.conceptType := congrArg Outline.conceptType stands.outline
  refine ⟨fun z c₁ found => ?_, by rw [outlines]; exact forest.ordered, fun z c₁ found => ?_,
    fun z c₁ found => ?_⟩
  · rcases place_eq_some_iff.mp found with ⟨rfl, rfl⟩ | ⟨-, before⟩
    · rfl
    · exact forest.keyed z c₁ before
  · rw [outlines]
    rcases place_eq_some_iff.mp found with ⟨rfl, rfl⟩ | ⟨-, before⟩
    · intro q member w
      rw [types] at member
      rw [stands.members q member]
      exact forest.listed _ c stored q member w
    · exact forest.listed z c₁ before
  · rcases place_eq_some_iff.mp found with ⟨rfl, rfl⟩ | ⟨-, before⟩
    · exact stands.complete
    · exact forest.complete z c₁ before

/-- Nothing is contained in what is not stored. -/
theorem outlines_container_ne (forest : Forest f) (absent : f x = none) {z : ConceptId}
    {t : ConceptType} : outlines f z ≠ some ⟨t, some x⟩ := by
  intro inside
  obtain ⟨c, stored, outline⟩ := outlines_eq_some_iff.mp inside
  obtain ⟨parent, q, there, -⟩ := forest.container_stored stored (congrArg Outline.container outline)
  rw [absent] at there
  cases there

/-- A new concept changes what has to be listed only in the list of its container for its type. -/
theorem listed_set (forest : Forest f) (absent : f c.id = none) {z : ConceptId} {u : Concept}
    (stored : f z = some u) {q : Containment} (member : q ∈ u.conceptType.containment)
    (w : ConceptId) : Outline.set (outlines f) c.id c.outline w = some ⟨q.target, some z⟩ ↔
      w ∈ u.members q ∨ w = c.id ∧ c.outline = ⟨q.target, some z⟩ := by
  rw [forest.listed z u stored q member w, Outline.set]
  split
  · rename_i same
    subst same
    rw [outlines, absent]
    simp
  · rename_i other
    simp [other]

/-- A new concept does not contain anything. -/
theorem set_container_ne (forest : Forest f) (absent : f c.id = none)
    (apart : c.container ≠ some c.id) {w : ConceptId} {t : ConceptType} :
    Outline.set (outlines f) c.id c.outline w ≠ some ⟨t, some c.id⟩ := by
  intro inside
  unfold Outline.set at inside
  split at inside
  · exact apart (congrArg Outline.container (Option.some.inj inside))
  · exact forest.outlines_container_ne absent inside

theorem added (forest : Forest f) (absent : f c.id = none) (root : c.conceptType.isRoot = true)
    (alone : c.container = none) (empty : ∀ q ∈ c.conceptType.containment, c.members q = [])
    (complete : c.Complete) : Forest (place f c) := by
  refine ⟨fun z c₁ found => ?_, ?_, fun z c₁ found q member w => ?_, fun z c₁ found => ?_⟩
  · rcases place_eq_some_iff.mp found with ⟨rfl, rfl⟩ | ⟨-, before⟩
    · rfl
    · exact forest.keyed z c₁ before
  · rw [outlines_place]
    exact forest.ordered.set_leaf (by simp [outlines, absent]) (.inl ⟨root, alone⟩)
  · rw [outlines_place]
    rcases place_eq_some_iff.mp found with ⟨rfl, rfl⟩ | ⟨apart, before⟩
    · rw [empty q member]
      exact ⟨fun none => absurd none List.not_mem_nil,
        fun inside => absurd inside (forest.set_container_ne absent (by simp [alone]))⟩
    · rw [forest.listed_set absent before member w]
      simp [Concept.outline, alone]
  · rcases place_eq_some_iff.mp found with ⟨rfl, rfl⟩ | ⟨-, before⟩
    · exact complete
    · exact forest.complete z c₁ before

/-- What is in place after two placements: the one that came last, the one before it, or a concept
that was there already. -/
theorem place_place_cases {z : ConceptId} {c₁ : Concept}
    (found : place (place f c) parent' z = some c₁) :
    (z = parent'.id ∧ c₁ = parent') ∨ (z = c.id ∧ c₁ = c) ∨
      (z ≠ parent'.id ∧ z ≠ c.id ∧ f z = some c₁) := by
  rcases place_eq_some_iff.mp found with ⟨rfl, rfl⟩ | ⟨other, found⟩
  · exact .inl ⟨rfl, rfl⟩
  · rcases place_eq_some_iff.mp found with ⟨rfl, rfl⟩ | ⟨other', found⟩
    · exact .inr (.inl ⟨rfl, rfl⟩)
    · exact .inr (.inr ⟨other, other', found⟩)

/-- A new concept with empty lists, and its container with the new one in the list for its type. -/
theorem entered (forest : Forest f) (absent : f c.id = none) (inner : c.conceptType.isRoot = false)
    (container : c.container = some y) (stored : f y = some parent) {q : Containment}
    (declared : q ∈ parent.conceptType.containment) (target : q.target = c.conceptType)
    (empty : ∀ q ∈ c.conceptType.containment, c.members q = []) (complete : c.Complete)
    (id : parent'.id = parent.id) (outline : parent'.outline = parent.outline)
    (members : ∀ q' ∈ parent.conceptType.containment, ∀ x,
      x ∈ parent'.members q' ↔ x ∈ parent.members q' ∨ q' = q ∧ x = c.id)
    (complete' : parent'.Complete) : Forest (place (place f c) parent') := by
  have here : parent'.id = y := id.trans (forest.keyed y parent stored)
  subst here
  have apart : parent'.id ≠ c.id := by
    intro same
    rw [same, absent] at stored
    cases stored
  have types : parent'.conceptType = parent.conceptType := congrArg Outline.conceptType outline
  have there : place f c parent'.id = some parent := place_eq_some_iff.mpr (.inr ⟨apart, stored⟩)
  have known : outlines (place (place f c) parent') = Outline.set (outlines f) c.id c.outline := by
    rw [outlines_place_of_eq there outline, outlines_place]
  have fits : (parent.conceptType.containmentFor? c.conceptType).isSome = true := by
    rw [ConceptType.containmentFor?_eq_some_iff.mpr ⟨declared, target⟩]
    rfl
  refine ⟨fun z c₁ found => ?_, ?_, fun z c₁ found q' member w => ?_, fun z c₁ found => ?_⟩
  · rcases place_place_cases found with ⟨rfl, rfl⟩ | ⟨rfl, rfl⟩ | ⟨-, -, stored⟩
    · rfl
    · rfl
    · exact forest.keyed z c₁ stored
  · rw [known]
    exact forest.ordered.set_leaf (by simp [outlines, absent]) (.inr ⟨parent'.id, parent.outline, inner,
      container, outlines_eq_some_iff.mpr ⟨parent, stored, rfl⟩, fits⟩)
  · rw [known]
    rcases place_place_cases found with ⟨rfl, rfl⟩ | ⟨rfl, rfl⟩ | ⟨elsewhere, -, before⟩
    · rw [types] at member
      rw [members q' member, forest.listed_set absent stored member w]
      have same : c.conceptType = q'.target ↔ q' = q :=
        ⟨fun targets => Concept.containment_eq_of_target member declared
          (targets.symm.trans target.symm), fun same => same ▸ target.symm⟩
      simp [Concept.outline, container, same, and_comm]
    · rw [empty q' member]
      exact ⟨fun none => absurd none List.not_mem_nil, fun inside => absurd inside
        (forest.set_container_ne absent (by rw [container]; simpa using apart))⟩
    · rw [forest.listed_set absent before member w]
      simp [Concept.outline, container, Ne.symm elsewhere]
  · rcases place_place_cases found with ⟨rfl, rfl⟩ | ⟨rfl, rfl⟩ | ⟨-, -, stored⟩
    · exact complete'
    · exact complete
    · exact forest.complete z c₁ stored

/-- Of the concepts that are contained outside of a branch, at most its top is within. -/
theorem top_or_outside {z : ConceptId} {t : ConceptType}
    (outside : ¬ Outline.Within (outlines f) top z) (child : outlines f x = some ⟨t, some z⟩) :
    x = top ∨ ¬ Outline.Within (outlines f) top x := by
  by_cases within : Outline.Within (outlines f) top x
  · cases within with
    | top => exact .inl rfl
    | under stored container inside =>
      cases child.symm.trans stored
      cases container
      exact absurd inside outside
  · exact .inr within

/-- Outside of a branch, and away from the container of its top, the lists stay right. -/
theorem listed_cut (forest : Forest f) {z : ConceptId} {q : Containment}
    (stored : f z = some c) (outside : ¬ Outline.Within (outlines f) top z)
    (member : q ∈ c.conceptType.containment)
    (apart : ∀ t, outlines f top ≠ some ⟨t, some z⟩) :
    x ∈ c.members q ↔ outlines (cut f top) x = some ⟨q.target, some z⟩ := by
  rw [forest.listed z c stored q member x, outlines_cut, Outline.cut_eq_some_iff]
  constructor
  · intro child
    refine ⟨?_, child⟩
    rcases top_or_outside outside child with rfl | apart'
    · exact absurd child (apart _)
    · exact apart'
  · exact fun both => both.2

theorem cut_root (forest : Forest f) (stored : f top = some c) (alone : c.container = none) :
    Forest (cut f top) where
  keyed z c₁ found := forest.keyed z c₁ (cut_eq_some_iff.mp found).2
  ordered := by
    rw [outlines_cut]
    exact forest.ordered.cut top
  listed z c₁ found q member w := by
    obtain ⟨outside, before⟩ := cut_eq_some_iff.mp found
    refine forest.listed_cut before outside member fun t inside => ?_
    rw [outlines, stored] at inside
    have named := congrArg Outline.container (Option.some.inj inside)
    cases alone.symm.trans named
  complete z c₁ found := forest.complete z c₁ (cut_eq_some_iff.mp found).2

theorem cut_under (forest : Forest f) (stored : f top = some c) (container : c.container = some y)
    (there : f y = some parent) (outside : ¬ Outline.Within (outlines f) top y)
    (id : parent'.id = parent.id) (outline : parent'.outline = parent.outline)
    (members : ∀ q ∈ parent.conceptType.containment, ∀ x,
      x ∈ parent'.members q ↔ x ∈ parent.members q ∧ x ≠ top)
    (complete' : parent'.Complete) : Forest (place (cut f top) parent') := by
  have here : parent'.id = y := id.trans (forest.keyed y parent there)
  subst here
  have types : parent'.conceptType = parent.conceptType := congrArg Outline.conceptType outline
  have kept : cut f top parent'.id = some parent := cut_eq_some_iff.mpr ⟨outside, there⟩
  have known : outlines (place (cut f top) parent') = outlines (cut f top) :=
    outlines_place_of_eq kept outline
  refine ⟨fun z c₁ found => ?_, ?_, fun z c₁ found q member w => ?_, fun z c₁ found => ?_⟩
  · rcases place_eq_some_iff.mp found with ⟨rfl, rfl⟩ | ⟨-, found⟩
    · rfl
    · exact forest.keyed z c₁ (cut_eq_some_iff.mp found).2
  · rw [known, outlines_cut]
    exact forest.ordered.cut top
  · rw [known]
    rcases place_eq_some_iff.mp found with ⟨rfl, rfl⟩ | ⟨apart, found⟩
    · rw [types] at member
      rw [members q member, forest.listed _ parent there q member w, outlines_cut,
        Outline.cut_eq_some_iff]
      constructor
      · rintro ⟨child, other⟩
        exact ⟨(top_or_outside outside child).resolve_left other, child⟩
      · rintro ⟨outside', child⟩
        refine ⟨child, ?_⟩
        rintro rfl
        exact outside' .top
    · obtain ⟨outside', before⟩ := cut_eq_some_iff.mp found
      refine forest.listed_cut before outside' member fun t inside => ?_
      rw [outlines, stored] at inside
      have named := congrArg Outline.container (Option.some.inj inside)
      exact apart (Option.some.inj (named.symm.trans container))
  · rcases place_eq_some_iff.mp found with ⟨rfl, rfl⟩ | ⟨-, found⟩
    · exact complete'
    · exact forest.complete z c₁ (cut_eq_some_iff.mp found).2

end Forest

end ConceptLedger
