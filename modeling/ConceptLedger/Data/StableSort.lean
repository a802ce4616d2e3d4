/-!
Sorting by a key so that entries with equal keys keep their order.
-/

namespace ConceptLedger

variable {α κ : Type} [Ord κ]

/-- Places `a` before the first entry whose key is not below its own. -/
def insertByKey (key : α → κ) (a : α) : List α → List α
  | [] => [a]
  | b :: rest =>
    if compare (key b) (key a) = .lt then b :: insertByKey key a rest else a :: b :: rest

/-- The list by ascending key; entries with equal keys stay in their order. -/
def sortByKey (key : α → κ) : List α → List α
  | [] => []
  | a :: rest => insertByKey key a (sortByKey key rest)

theorem insertByKey_perm (key : α → κ) (a : α) (l : List α) :
    (insertByKey key a l).Perm (a :: l) := by
  induction l with
  | nil => exact .refl _
  | cons b rest ih =>
    unfold insertByKey
    split
    · exact (ih.cons b).trans (.swap a b rest)
    · exact .refl _

theorem sortByKey_perm (key : α → κ) (l : List α) : (sortByKey key l).Perm l := by
  induction l with
  | nil => exact .refl _
  | cons a rest ih => exact (insertByKey_perm key a _).trans (ih.cons a)

end ConceptLedger
