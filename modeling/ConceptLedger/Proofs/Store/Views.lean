import ConceptLedger.Store.Memory
import ConceptLedger.Proofs.Step.Alike

/-!
Views in memory side by side. The calls of a batch in a partition go alike on two views that can be
written to and hold the same concepts there. The revision that a view gives out next is the one
after its counter, as long as there is one.
-/

namespace ConceptLedger.Memory.View

open Step

/-- Relations between views under which calls in a partition go alike: the views can be written to,
hold the same concepts there, and stay related when one is put in place or dropped. -/
structure Kindred (R : View → View → Prop) (p : Partition) : Prop where
  writable : ∀ {v w}, R v w → v.writable = true ∧ w.writable = true
  finds : ∀ {v w}, R v w → v.contents.find? p = w.contents.find? p
  put : ∀ {v w}, R v w → ∀ c, R { v with contents := v.contents.put p c }
    { w with contents := w.contents.put p c }
  drop : ∀ {v w}, R v w → ∀ id, R { v with contents := v.contents.drop p id }
    { w with contents := w.contents.drop p id }

namespace Kindred

variable {R : View → View → Prop} {p : Partition} {E : Failure → Failure → Prop}
  (kindred : Kindred R p)

include kindred

theorem guarded (op : String) :
    Alike R E (fun _ => True) (guardWrite op) (guardWrite op) := by
  refine .look fun v w related => ?_
  obtain ⟨left, right⟩ := kindred.writable related
  simp [left, right]

theorem asked (id : ConceptId) :
    Alike R E (fun _ => True) (Step.gets fun v : View => (v.contents.find? p id).isSome)
      (Step.gets fun v : View => (v.contents.find? p id).isSome) := by
  refine .gets fun v w related => ⟨?_, trivial⟩
  rw [kindred.finds related]

theorem write (c : Concept) : Alike R E (fun _ => True) (View.write p c) (View.write p c) := by
  refine (kindred.guarded "write").bind fun _ _ => (kindred.asked c.id).bind fun found _ => ?_
  cases found with
  | true => exact .pure trivial
  | false =>
    exact (Alike.modify fun _ _ related => kindred.put related c).bind fun _ _ => .pure trivial

theorem update (c : Concept) : Alike R E (fun _ => True) (View.update p c) (View.update p c) := by
  refine (kindred.guarded "update").bind fun _ _ => (kindred.asked c.id).bind fun found _ => ?_
  cases found with
  | true =>
    exact (Alike.modify fun _ _ related => kindred.put related c).bind fun _ _ => .pure trivial
  | false => exact .pure trivial

theorem delete (id : ConceptId) :
    Alike R E (fun _ => True) (View.delete p id) (View.delete p id) := by
  refine (kindred.guarded "delete").bind fun _ _ => (kindred.asked id).bind fun found _ => ?_
  exact (Alike.modify fun _ _ related => kindred.drop related id).bind fun _ _ => .pure trivial

end Kindred

/-- Raising a counter fails only where it has come to its end. -/
theorem raiseRevision_eq (p : Partition) {v : View} (writable : v.writable = true) :
    raiseRevision p v =
      if v.contents.counter p + 1 = 0 then (.error .overflow, v)
      else (.ok (v.contents.counter p + 1),
        { v with contents := v.contents.count p (v.contents.counter p + 1) }) := by
  have guarded : guardWrite "allocate_revision" v = (.ok (), v) := by
    simp [guardWrite, look, writable]
  have asked : Step.gets (fun v : View => v.contents.counter p) v =
      (.ok (v.contents.counter p), v) := rfl
  refine (bind_of_ok guarded).trans ((bind_of_ok asked).trans ?_)
  split
  · rfl
  · rfl

theorem nextRevision_cases (p : Partition) {v : View} (writable : v.writable = true) :
    (v.contents.counter p + 1 ≠ 0 ∧ ConceptStore.nextRevision p v =
      (.ok (v.contents.counter p + 1),
        { v with contents := v.contents.count p (v.contents.counter p + 1) })) ∨
    v.contents.counter p + 1 = 0 ∧ ConceptStore.nextRevision p v = (.error .overflow, v) := by
  have read : Step.look (fun v : View => ConceptStore.currentRevision v p) v =
      (.ok (v.contents.counter p), v) := rfl
  have raising := raiseRevision_eq p writable
  by_cases ended : v.contents.counter p + 1 = 0
  · rw [if_pos ended] at raising
    exact .inr ⟨ended, (bind_of_ok read).trans (bind_of_error raising)⟩
  · rw [if_neg ended] at raising
    have grown : ¬ v.contents.counter p + 1 ≤ v.contents.counter p := by
      intro below
      have atEnd : v.contents.counter p + 1 = 0 := by
        rw [UInt64.le_iff_toNat_le, UInt64.toNat_add] at below
        rw [← UInt64.toNat_inj, UInt64.toNat_add]
        have bound := (v.contents.counter p).toNat_lt
        simp only [UInt64.toNat_one, UInt64.toNat_zero] at below ⊢
        omega
      exact ended atEnd
    refine .inl ⟨ended, (bind_of_ok read).trans ((bind_of_ok raising).trans ?_)⟩
    show (ConceptStore.checkedRevision p _ _, _) = _
    rw [ConceptStore.checkedRevision, if_neg grown]

end ConceptLedger.Memory.View
