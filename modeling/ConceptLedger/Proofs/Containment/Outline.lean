import ConceptLedger.Concept.Basic

/-!
The outline of a partition: the type and the container of each of its concepts. It is in order
when roots stand alone, every other concept has a container that can hold it, and following
containers always ends at a root. Adding a leaf and cutting off a branch keep it in order.
-/

namespace ConceptLedger

/-- What a concept is and where it is contained. -/
structure Outline where
  conceptType : ConceptType
  container : Option ConceptId
deriving DecidableEq

/-- The outline of a concept. -/
def Concept.outline (c : Concept) : Outline := ⟨c.conceptType, c.container⟩

theorem Concept.outline_eq {c c' : Concept} (type : c'.conceptType = c.conceptType)
    (container : c'.container = c.container) : c'.outline = c.outline := by
  rw [outline, outline, type, container]

namespace Outline

variable {o : ConceptId → Option Outline} {x y z top : ConceptId} {u v : Outline}

/-- Following containers from a concept ends at a root. -/
inductive Grounded (o : ConceptId → Option Outline) : ConceptId → Prop
  | root {x : ConceptId} {u : Outline} (stored : o x = some u)
      (root : u.conceptType.isRoot = true) : Grounded o x
  | under {x y : ConceptId} {u : Outline} (stored : o x = some u) (container : u.container = some y)
      (above : Grounded o y) : Grounded o x

/-- A concept is within another one if it is that one or contained in one that is within it. -/
inductive Within (o : ConceptId → Option Outline) (top : ConceptId) : ConceptId → Prop
  | top : Within o top top
  | under {x y : ConceptId} {u : Outline} (stored : o x = some u) (container : u.container = some y)
      (inside : Within o top y) : Within o top x

/-- An outline in order. -/
structure Ordered (o : ConceptId → Option Outline) : Prop where
  root : ∀ x u, o x = some u → u.conceptType.isRoot = true → u.container = none
  housed : ∀ x u, o x = some u → u.conceptType.isRoot = false → ∃ y v, u.container = some y ∧
    o y = some v ∧ (v.conceptType.containmentFor? u.conceptType).isSome = true
  grounded : ∀ x u, o x = some u → Grounded o x

/-- The outline with an entry at a place. -/
def set (o : ConceptId → Option Outline) (x : ConceptId) (u : Outline) :
    ConceptId → Option Outline := fun z => if z = x then some u else o z

theorem Ordered.empty : Ordered fun _ => none where
  root _ _ stored := nomatch stored
  housed _ _ stored := nomatch stored
  grounded _ _ stored := nomatch stored

/-- A container that is named is there. -/
theorem Ordered.container_stored (ordered : Ordered o) (stored : o x = some u)
    (container : u.container = some y) :
    ∃ v, o y = some v ∧ (v.conceptType.containmentFor? u.conceptType).isSome = true := by
  cases kind : u.conceptType.isRoot with
  | true =>
    rw [ordered.root x u stored kind] at container
    cases container
  | false =>
    obtain ⟨y', v, named, there, fits⟩ := ordered.housed x u stored kind
    cases named.symm.trans container
    exact ⟨v, there, fits⟩

/-- What is grounded stays so when entries are only added. -/
theorem Grounded.mono {o' : ConceptId → Option Outline} (grows : ∀ x u, o x = some u → o' x = some u)
    (grounded : Grounded o x) : Grounded o' x := by
  induction grounded with
  | root stored root => exact .root (grows _ _ stored) root
  | under stored container _ ih => exact .under (grows _ _ stored) container ih

theorem Ordered.set_leaf (ordered : Ordered o) (absent : o x = none)
    (place : (u.conceptType.isRoot = true ∧ u.container = none) ∨
      ∃ y v, u.conceptType.isRoot = false ∧ u.container = some y ∧ o y = some v ∧
        (v.conceptType.containmentFor? u.conceptType).isSome = true) :
    Ordered (set o x u) := by
  have grows : ∀ z v, o z = some v → set o x u z = some v := by
    intro z v stored
    have apart : z ≠ x := by
      rintro rfl
      rw [absent] at stored
      cases stored
    rw [set, if_neg apart, stored]
  refine ⟨fun z v stored kind => ?_, fun z v stored kind => ?_, fun z v stored => ?_⟩
  · unfold set at stored
    split at stored
    · cases stored
      rcases place with ⟨-, alone⟩ | ⟨y, w, inner, -⟩
      · exact alone
      · rw [kind] at inner
        cases inner
    · exact ordered.root z v stored kind
  · unfold set at stored
    split at stored
    · cases stored
      rcases place with ⟨root, -⟩ | ⟨y, w, -, container, there, fits⟩
      · rw [kind] at root
        cases root
      · exact ⟨y, w, container, grows y w there, fits⟩
    · obtain ⟨y, w, container, there, fits⟩ := ordered.housed z v stored kind
      exact ⟨y, w, container, grows y w there, fits⟩
  · have here : set o x u z = some v := stored
    unfold set at stored
    split at stored
    · cases stored
      rcases place with ⟨root, -⟩ | ⟨y, w, -, container, there, -⟩
      · exact .root here root
      · exact .under here container ((ordered.grounded y w there).mono grows)
    · exact (ordered.grounded z v stored).mono grows

/-- What is within something that is within a concept is within that concept. -/
theorem Within.trans (first : Within o x y) (later : Within o y z) : Within o x z := by
  induction later with
  | top => exact first
  | under stored container _ ih => exact .under stored container ih

/-- The container of a concept is not within it. -/
theorem Ordered.container_not_within (ordered : Ordered o) (stored : o x = some u)
    (container : u.container = some y) : ¬ Within o x y := by
  have grounded := ordered.grounded x u stored
  -- one step up, what would be within the concept would have its own container within it
  induction grounded generalizing u y with
  | root stored' root =>
    cases stored.symm.trans stored'
    rw [ordered.root _ _ stored root] at container
    cases container
  | under stored' container' _ ih =>
    cases stored.symm.trans stored'
    cases container.symm.trans container'
    intro within
    cases within with
    | top => exact ih stored container .top
    | under placed named inside =>
      exact ih placed named ((Within.under stored container .top).trans inside)

/-- The outline without a branch. -/
noncomputable def cut (o : ConceptId → Option Outline) (top : ConceptId) :
    ConceptId → Option Outline :=
  open Classical in fun x => if Within o top x then none else o x

theorem cut_eq_some_iff : cut o top x = some u ↔ ¬ Within o top x ∧ o x = some u := by
  unfold cut
  split <;> simp_all

/-- Outside of a branch, containers are outside too. -/
theorem container_outside (outside : ¬ Within o top x) (stored : o x = some u)
    (container : u.container = some y) : ¬ Within o top y :=
  fun inside => outside (.under stored container inside)

theorem Ordered.cut (ordered : Ordered o) (top : ConceptId) : Ordered (Outline.cut o top) := by
  refine ⟨fun x u kept => ordered.root x u (cut_eq_some_iff.mp kept).2, fun x u kept kind => ?_,
    fun x u kept => ?_⟩
  · obtain ⟨outside, stored⟩ := cut_eq_some_iff.mp kept
    obtain ⟨y, v, container, there, fits⟩ := ordered.housed x u stored kind
    exact ⟨y, v, container,
      cut_eq_some_iff.mpr ⟨container_outside outside stored container, there⟩, fits⟩
  · obtain ⟨outside, stored⟩ := cut_eq_some_iff.mp kept
    have grounded := ordered.grounded x u stored
    clear stored kept u
    induction grounded with
    | root stored root => exact .root (cut_eq_some_iff.mpr ⟨outside, stored⟩) root
    | under stored container _ ih =>
      exact .under (cut_eq_some_iff.mpr ⟨outside, stored⟩) container
        (ih (container_outside outside stored container))

end Outline

end ConceptLedger
