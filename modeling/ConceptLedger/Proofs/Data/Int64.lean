/-!
The order of 64-bit numbers: one more is above as long as there is room, and the maximum is that of the
order.
-/

namespace ConceptLedger

theorem Int64.lt_add_one {n : Int64} (room : n ≠ Int64.maxValue) : n < n + 1 := by
  have below := n.toInt_lt
  have above := n.le_toInt
  have apart : n.toInt ≠ Int64.maxValue.toInt := fun same => room (Int64.toInt_inj.mp same)
  have last : Int64.maxValue.toInt = 2 ^ 63 - 1 := by decide
  have one : (1 : Int64).toInt = 1 := by decide
  rw [Int64.lt_iff_toInt_lt, Int64.toInt_add, one, Int.bmod_def]
  split <;> omega

/-- The maximum of 64-bit numbers is that of their order. -/
instance Int64.lawfulOrderMax : Std.LawfulOrderMax Int64 where
  max_eq_or a b := by
    show (if a ≤ b then b else a) = a ∨ (if a ≤ b then b else a) = b
    split
    · exact .inr rfl
    · exact .inl rfl
  max_le_iff a b c := by
    show (if a ≤ b then b else a) ≤ c ↔ _
    split
    · rename_i below
      exact ⟨fun bound => ⟨Int64.le_trans below bound, bound⟩, And.right⟩
    · rename_i above
      have above := Int64.le_of_lt (Int64.not_le.mp above)
      exact ⟨fun bound => ⟨bound, Int64.le_trans above bound⟩, And.left⟩

end ConceptLedger
