import ConceptLedger.Data.SortedMap

/-!
Finite sets listed in strictly increasing order. A set is a map to the one-point type, so it shares
the laws of maps.
-/

namespace ConceptLedger

/-- A finite set, listed in increasing order. -/
abbrev SortedSet (α : Type) [Ord α] := SortedMap α Unit

namespace SortedSet

variable {α : Type} [Ord α]

/-- The members in increasing order. -/
def elements (s : SortedSet α) : List α := s.keys

/-- Whether a value is a member. -/
def has (s : SortedSet α) (a : α) : Bool := s.contains a

theorem elements_nodup [Std.LawfulEqOrd α] (s : SortedSet α) : s.elements.Nodup := by
  refine List.pairwise_map.mpr (s.increasing.imp fun below same => ?_)
  rw [same] at below
  simp at below

variable [Std.TransOrd α] [Std.LawfulEqOrd α]

/-- The set with one more member. -/
def add (s : SortedSet α) (a : α) : SortedSet α := s.insert a ()

/-- The set of the members of a list. -/
def ofMembers (l : List α) : SortedSet α := l.foldl add SortedMap.empty

theorem find?_foldl_add [DecidableEq α] (l : List α) (s : SortedSet α) (a : α) :
    (l.foldl add s).find? a = if a ∈ l then some () else s.find? a := by
  induction l generalizing s with
  | nil => simp
  | cons b rest ih =>
    rw [List.foldl_cons, ih, add, SortedMap.find?_insert]
    by_cases later : a ∈ rest <;> by_cases first : a = b <;> simp [later, first]

theorem find?_ofMembers [DecidableEq α] (l : List α) (a : α) :
    (ofMembers l).find? a = if a ∈ l then some () else none :=
  find?_foldl_add l SortedMap.empty a

/-- Sets of members are equal when the lists have the same members. -/
theorem ofMembers_eq_iff [DecidableEq α] {l r : List α} :
    ofMembers l = ofMembers r ↔ ∀ a, a ∈ l ↔ a ∈ r := by
  constructor
  · intro same a
    have found := congrArg (SortedMap.find? · a) same
    simp only [find?_ofMembers] at found
    by_cases left : a ∈ l <;> by_cases right : a ∈ r <;> simp_all
  · intro same
    refine SortedMap.ext_find? fun a => ?_
    simp only [find?_ofMembers, same]

theorem mem_elements_ofMembers [DecidableEq α] {l : List α} {a : α} :
    a ∈ (ofMembers l).elements ↔ a ∈ l := by
  constructor
  · intro member
    obtain ⟨⟨_, u⟩, entry, rfl⟩ := List.mem_map.mp member
    have found := SortedMap.find?_eq_some_iff.mpr entry
    rw [find?_ofMembers] at found
    split at found
    · assumption
    · cases found
  · intro member
    have found : (ofMembers l).find? a = some () := by simp [find?_ofMembers, member]
    exact List.mem_map.mpr ⟨(a, ()), SortedMap.find?_eq_some_iff.mp found, rfl⟩

end SortedSet

end ConceptLedger
