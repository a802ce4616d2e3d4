import ConceptLedger.Proofs.Instant.Rfc3339

/-!
What can be read as an instant. Whatever the text is like, with blanks, offsets and leap seconds, the
instant is in the supported years, and in no leap second or in one at the end of a minute. So it can
be written, and what is written is read as the same instant.
-/

namespace ConceptLedger

/-- Values that are read from a list are as many, and each is read from an entry. -/
theorem read_mapM {α β : Type} {f : α → Option β} {l : List α} {r : List β}
    (run : l.mapM f = some r) : r.length = l.length ∧ ∀ b ∈ r, ∃ a ∈ l, f a = some b := by
  induction l generalizing r with
  | nil =>
    cases run
    exact ⟨rfl, fun _ none => nomatch none⟩
  | cons a rest ih =>
    rw [List.mapM_cons] at run
    obtain ⟨b, first, run⟩ := Option.bind_eq_some_iff.mp run
    obtain ⟨bs, later, run⟩ := Option.bind_eq_some_iff.mp run
    cases run
    obtain ⟨length, each⟩ := ih later
    refine ⟨congrArg (· + 1) length, fun b' member => ?_⟩
    rcases List.mem_cons.mp member with rfl | member
    · exact ⟨a, List.mem_cons_self, first⟩
    · obtain ⟨a', found, read⟩ := each b' member
      exact ⟨a', List.mem_cons_of_mem _ found, read⟩

namespace Digits

theorem decimalValue?_lt {c : Char} {d : Nat} (read : decimalValue? c = some d) : d < 10 := by
  unfold decimalValue? at read
  split at read
  · rename_i within
    cases read
    have high : c.toNat ≤ 57 := within.2
    have zero : '0'.toNat = 48 := rfl
    omega
  · cases read

/-- A number has no more digits than were read. -/
theorem readDecimal?_lt {cs : List Char} {n : Nat} (read : readDecimal? cs = some n) :
    n < 10 ^ cs.length := by
  unfold readDecimal? at read
  split at read
  · cases read
  · obtain ⟨ds, digits, rfl⟩ := Option.map_eq_some_iff.mp read
    obtain ⟨length, each⟩ := read_mapM digits
    rw [← length]
    refine value_lt fun d member => ?_
    obtain ⟨c, -, read⟩ := each d member
    exact decimalValue?_lt read

end Digits

namespace Instant

open Digits

section Read

variable {cs rest : List Char} {n : Nat}

theorem readDigits?_lt {width : Nat} (read : readDigits? width cs = some (n, rest)) :
    ∃ k, k ≤ width ∧ k ≤ cs.length ∧ rest = cs.drop k ∧ n < 10 ^ k := by
  obtain ⟨n, number, same⟩ := Option.map_eq_some_iff.mp read
  cases same
  have short := (List.takeWhile_sublist (l := cs.take width)
    (fun c => (decimalValue? c).isSome)).length_le
  rw [List.length_take] at short
  exact ⟨_, by omega, by omega, rfl, readDecimal?_lt number⟩

/-- A fraction is less than a second. -/
theorem readFraction?_lt (read : readFraction? cs = some (n, rest)) : n < 1000000000 := by
  unfold readFraction? at read
  split at read
  · rename_i cs
    obtain ⟨⟨m, left⟩, digits, same⟩ := Option.map_eq_some_iff.mp read
    cases same
    obtain ⟨k, fits, within, rfl, bound⟩ := readDigits?_lt digits
    have count : cs.length - (cs.drop k).length = k := by
      rw [List.length_drop]
      omega
    show m * 10 ^ (9 - (cs.length - (cs.drop k).length)) < 10 ^ 9
    rw [count]
    calc m * 10 ^ (9 - k) < 10 ^ k * 10 ^ (9 - k) :=
          Nat.mul_lt_mul_of_pos_right bound (Nat.pow_pos (by decide))
      _ = 10 ^ 9 := by rw [← pow_add, Nat.add_sub_cancel' fits]
  · cases read
    decide

/-- A time of day is in no leap second or in one that ends a minute. -/
theorem readTime?_leap {second nanos : Nat} (read : readTime? cs = some (second, nanos, rest)) :
    nanos < 1000000000 ∨ second % 60 = 59 := by
  unfold readTime? at read
  obtain ⟨⟨hour, cs⟩, -, read⟩ := Option.bind_eq_some_iff.mp read
  obtain ⟨cs, -, read⟩ := Option.bind_eq_some_iff.mp read
  obtain ⟨⟨minute, cs⟩, -, read⟩ := Option.bind_eq_some_iff.mp read
  obtain ⟨cs, -, read⟩ := Option.bind_eq_some_iff.mp read
  obtain ⟨⟨last, cs⟩, -, read⟩ := Option.bind_eq_some_iff.mp read
  obtain ⟨⟨fraction, cs⟩, part, read⟩ := Option.bind_eq_some_iff.mp read
  have small := readFraction?_lt part
  dsimp only at read
  split at read
  · rename_i within
    cases read
    rcases Nat.lt_or_eq_of_le within.2.2 with ordinary | rfl
    · exact .inl (by omega)
    · exact .inr (by omega)
  · cases read

/-- An offset is whole minutes. -/
theorem readOffset?_minutes {offset : Int} (read : readOffset? cs = some (offset, rest)) :
    offset % 60 = 0 := by
  unfold readOffset? at read
  extract_lets signed at read
  have whole {negative : Bool} {cs : List Char} (read : signed negative cs = some (offset, rest)) :
      offset % 60 = 0 := by
    obtain ⟨⟨hours, cs⟩, -, read⟩ := Option.bind_eq_some_iff.mp read
    obtain ⟨⟨minutes, cs⟩, -, read⟩ := Option.bind_eq_some_iff.mp read
    dsimp only at read
    split at read
    · cases read
      split <;> omega
    · cases read
  split at read
  · cases read
    rfl
  · cases read
    rfl
  · exact whole read
  · exact whole read
  · exact whole read
  · split at read
    · cases read
      rfl
    · cases read
  · cases read

/-- What is read as an instant is in the supported years, and in no leap second or in one that ends a
minute. -/
theorem readChars?_bounds {t : Instant} (read : readChars? cs = some t) :
    t.inRange = true ∧ (t.nanos < 1000000000 ∨ t.seconds % 60 = 59) := by
  unfold readChars? at read
  obtain ⟨⟨date, cs⟩, -, read⟩ := Option.bind_eq_some_iff.mp read
  dsimp -zeta only at read
  extract_lets later at read
  have within {cs : List Char} (read : later cs = some t) :
      t.inRange = true ∧ (t.nanos < 1000000000 ∨ t.seconds % 60 = 59) := by
    obtain ⟨⟨second, nanos, cs⟩, time, read⟩ := Option.bind_eq_some_iff.mp read
    obtain ⟨⟨offset, cs⟩, shift, read⟩ := Option.bind_eq_some_iff.mp read
    have leap := readTime?_leap time
    have minutes := readOffset?_minutes shift
    dsimp only at read
    split at read
    · split at read
      · split at read
        · rename_i range
          cases read
          refine ⟨range, ?_⟩
          dsimp only
          omega
        · cases read
      · cases read
    · cases read
  -- any of the marks between day and time will do
  split at read
  · exact within read
  · exact within read
  · exact within read
  · cases read

end Read

/-- An instant that was read is read again from its own text. -/
theorem read?_text_of_read? {s : String} {t : Instant} (read : read? s = some t) :
    read? t.text = some t :=
  have bounds := readChars?_bounds read
  read?_text bounds.1 bounds.2

end Instant

end ConceptLedger
