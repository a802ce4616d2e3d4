import ConceptLedger.Instant.Basic
import Mathlib.Tactic.Common

/-!
The order of instants: by second and then by nanosecond.
-/

namespace ConceptLedger.Instant

theorem compare_eq (a b : Instant) :
    compare a b = (compare a.seconds b.seconds).then (compare a.nanos b.nanos) := rfl

/-- Instants are ordered by second and then by nanosecond. -/
theorem atMost_iff {a b : Instant} :
    a.atMost b = true ↔ a.seconds < b.seconds ∨ a.seconds = b.seconds ∧ a.nanos ≤ b.nanos := by
  rw [atMost, compare_eq]
  rcases Int.lt_trichotomy a.seconds b.seconds with before | same | after
  · simp [Std.compare_eq_lt.mpr before, before]
  · rw [same]
    simp [Std.compare_eq_gt]
  · simp [Std.compare_eq_gt.mpr after]
    omega

theorem lt_iff {a b : Instant} :
    compare a b = .lt ↔ a.seconds < b.seconds ∨ a.seconds = b.seconds ∧ a.nanos < b.nanos := by
  rw [compare_eq]
  rcases Int.lt_trichotomy a.seconds b.seconds with before | same | after
  · simp [Std.compare_eq_lt.mpr before, before]
  · rw [same]
    simp [Std.compare_eq_lt]
  · simp [Std.compare_eq_gt.mpr after]
    omega

theorem lt_of_atMost_of_lt {a b c : Instant} (first : a.atMost b = true) (second : compare b c = .lt) :
    compare a c = .lt := by
  rw [atMost_iff] at first
  rw [lt_iff] at second ⊢
  omega

/-- What comes before an instant comes before what it is at most. -/
theorem atMost_of_lt_of_atMost {a b c : Instant} (first : compare a b = .lt)
    (second : b.atMost c = true) : a.atMost c = true := by
  rw [lt_iff] at first
  rw [atMost_iff] at second ⊢
  omega

theorem lt_of_not_atMost {a b : Instant} (beyond : a.atMost b = false) : compare b a = .lt := by
  have beyond : ¬ a.atMost b = true := by simp [beyond]
  rw [atMost_iff] at beyond
  rw [lt_iff]
  omega

theorem lt_nextMilli (t : Instant) : compare t t.nextMilli = .lt := by
  rw [lt_iff, nextMilli]
  split
  · right
    exact ⟨rfl, by dsimp only; omega⟩
  · left
    dsimp only
    omega

end ConceptLedger.Instant
