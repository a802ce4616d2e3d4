import ConceptLedger.Instant.Rfc3339
import ConceptLedger.Proofs.Instant.Calendar
import ConceptLedger.Proofs.Text.Digits

/-!
The text of an instant is read back. Each part of the text is read off the front of what is left, and
what follows it is never mistaken for more of it.
-/

namespace ConceptLedger.Instant

open Digits

section Front

variable {cs rest : List Char} {n width : Nat}

theorem digit_of_spells (spells : Spells cs n) : ∀ c ∈ cs, (decimalValue? c).isSome = true := by
  obtain ⟨ds, read, -⟩ := spells
  induction cs generalizing ds with
  | nil => exact fun _ none => nomatch none
  | cons c cs ih =>
    rw [List.mapM_cons] at read
    obtain ⟨d, first, read⟩ := Option.bind_eq_some_iff.mp read
    obtain ⟨later, others, -⟩ := Option.bind_eq_some_iff.mp read
    intro c' member
    rcases List.mem_cons.mp member with rfl | member
    · exact Option.isSome_of_eq_some first
    · exact ih later others c' member

/-- Digits are read off the front if they fill the width or no digit follows. -/
theorem readDigits?_append (spells : Spells cs n) (some_ : cs ≠ []) (fits : cs.length ≤ width)
    (stops : cs.length = width ∨ ∀ c ∈ rest.head?, decimalValue? c = none) :
    readDigits? width (cs ++ rest) = some (n, rest) := by
  have taken : ((cs ++ rest).take width).takeWhile (fun c => (decimalValue? c).isSome) = cs := by
    rw [List.take_append, List.take_of_length_le fits,
      List.takeWhile_append_of_pos (digit_of_spells spells)]
    rcases stops with full | stops
    · simp [full]
    · cases rest with
      | nil => simp
      | cons c rest =>
        have none := stops c rfl
        cases width - cs.length <;> simp [none]
  obtain ⟨ds, read, rfl⟩ := spells
  simp only [readDigits?, taken, List.drop_left, readDecimal?, List.isEmpty_iff, some_, if_false, read,
    Option.map_some]

/-- No digit is a blank or a sign. -/
theorem plain_of_digit {c : Char} (digit : (decimalValue? c).isSome = true) :
    isBlank c = false ∧ c ≠ '-' ∧ c ≠ '+' := by
  unfold decimalValue? at digit
  split at digit
  · rename_i within
    have low : 48 ≤ c.toNat := within.1
    have high : c.toNat ≤ 57 := within.2
    refine ⟨?_, ?_, ?_⟩
    · simp [isBlank]
      omega
    · rintro rfl
      exact absurd low (by decide)
    · rintro rfl
      exact absurd low (by decide)
  · cases digit

theorem skipBlanks_of_spells (spells : Spells cs n) (some_ : cs ≠ []) :
    skipBlanks (cs ++ rest) = cs ++ rest := by
  cases cs with
  | nil => exact absurd rfl some_
  | cons c cs =>
    have plain := (plain_of_digit (digit_of_spells spells c List.mem_cons_self)).1
    simp [skipBlanks, plain]

theorem readPart (width n : Nat) (positive : 0 < width) (bound : n < 10 ^ width) (rest : List Char) :
    readNumber? width (decimalFixed width n ++ rest) = some (n, rest) := by
  have spells := spells_decimalFixed width n
  have length := length_decimalFixed width n
  have some_ : decimalFixed width n ≠ [] := by
    intro none
    rw [none] at length
    simp at length
    omega
  rw [Nat.mod_eq_of_lt bound] at spells
  rw [readNumber?, skipBlanks_of_spells spells some_]
  exact readDigits?_append spells some_ (by omega) (.inl length)

theorem readYear (year : Int) (rest : List Char) :
    readYear? (yearText year ++ '-' :: rest) = some (year, '-' :: rest) := by
  unfold yearText
  split
  · rename_i ordinary
    have spells := spells_decimalFixed 4 year.toNat
    rw [Nat.mod_eq_of_lt (by omega)] at spells
    have length := length_decimalFixed 4 year.toNat
    generalize decimalFixed 4 year.toNat = cs at spells length
    have some_ : cs ≠ [] := by
      rintro rfl
      cases length
    have read : readDigits? 4 (cs ++ '-' :: rest) = some (year.toNat, '-' :: rest) :=
      readDigits?_append spells some_ (by omega) (.inl length)
    unfold readYear?
    rw [skipBlanks_of_spells spells some_]
    cases cs with
    | nil => exact absurd rfl some_
    | cons c cs =>
      obtain ⟨-, minus, plus⟩ := plain_of_digit (digit_of_spells spells c List.mem_cons_self)
      rw [List.cons_append] at read ⊢
      split
      · rename_i same
        cases same
        exact absurd rfl minus
      · rename_i same
        cases same
        exact absurd rfl plus
      · rw [read, Option.map_some, Int.toNat_of_nonneg ordinary.1]
  · have spells : Spells (decimalPadded 4 year.natAbs) year.natAbs := (spells_decimal _).pad _
    have some_ : decimalPadded 4 year.natAbs ≠ [] := by
      simp [decimalPadded, decimal_eq]
    generalize decimalPadded 4 year.natAbs = cs at spells some_
    have read : readDigits? (cs ++ '-' :: rest).length (cs ++ '-' :: rest) =
        some (year.natAbs, '-' :: rest) :=
      readDigits?_append spells some_ (by simp) (.inr fun c first => by cases first; rfl)
    by_cases below : year < 0
    · have signed : readYear? ('-' :: (cs ++ '-' :: rest)) =
          (readDigits? (cs ++ '-' :: rest).length (cs ++ '-' :: rest)).map fun r =>
            (-(r.1 : Int), r.2) := rfl
      rw [if_pos below, List.cons_append, signed, read, Option.map_some]
      simp only [Option.some.injEq, Prod.mk.injEq, and_true]
      omega
    · have signed : readYear? ('+' :: (cs ++ '-' :: rest)) =
          (readDigits? (cs ++ '-' :: rest).length (cs ++ '-' :: rest)).map fun r =>
            ((r.1 : Int), r.2) := rfl
      rw [if_neg below, List.cons_append, signed, read, Option.map_some]
      simp only [Option.some.injEq, Prod.mk.injEq, and_true]
      omega

/-- A point and digits are read as the fraction that they spell. -/
theorem readFraction (width k : Nat) (positive : 0 < width) (fits : width ≤ 9)
    (bound : k < 10 ^ width) (rest : List Char) :
    readFraction? ('.' :: (decimalFixed width k ++ 'Z' :: rest)) =
      some (k * 10 ^ (9 - width), 'Z' :: rest) := by
  have spells := spells_decimalFixed width k
  rw [Nat.mod_eq_of_lt bound] at spells
  have length := length_decimalFixed width k
  generalize decimalFixed width k = cs at spells length
  have some_ : cs ≠ [] := by
    rintro rfl
    simp at length
    omega
  have read : readDigits? 9 (cs ++ 'Z' :: rest) = some (k, 'Z' :: rest) :=
    readDigits?_append spells some_ (by omega) (.inr fun c first => by cases first; rfl)
  have stays : ('Z' :: rest).dropWhile (fun c => (decimalValue? c).isSome) = 'Z' :: rest := rfl
  have count : (cs ++ 'Z' :: rest).length - ('Z' :: rest).length = width := by simp [length]
  rw [readFraction?, read, Option.map_some, stays, count]
  rfl

theorem readNanos {nanos : Nat} (bound : nanos < 1000000000) (rest : List Char) :
    readFraction? (fractionText nanos ++ 'Z' :: rest) = some (nanos, 'Z' :: rest) := by
  unfold fractionText
  split
  · rename_i none
    rw [none]
    rfl
  · split
    · rename_i millis
      rw [List.cons_append, readFraction 3 (nanos / 1000000) (by decide) (by decide) (by omega)]
      simp only [Option.some.injEq, Prod.mk.injEq, and_true]
      omega
    · split
      · rename_i micros
        rw [List.cons_append, readFraction 6 (nanos / 1000) (by decide) (by decide) (by omega)]
        simp only [Option.some.injEq, Prod.mk.injEq, and_true]
        omega
      · rw [List.cons_append, readFraction 9 nanos (by decide) (by decide) (by omega)]
        simp

theorem readDate {date : Date} (valid : date.valid = true) (above : Date.first.year ≤ date.year)
    (below : date.year ≤ Date.last.year) (rest : List Char) :
    readDate? (yearText date.year ++ '-' :: (decimalFixed 2 date.month ++ '-' ::
      (decimalFixed 2 date.day ++ rest))) = some (date, rest) := by
  have parts := valid
  unfold Date.valid Date.monthLength at parts
  simp only [Bool.and_eq_true, decide_eq_true_eq] at parts
  have month : date.month < 10 ^ 2 := by omega
  have day : date.day < 10 ^ 2 := by
    obtain ⟨-, last⟩ := parts
    split at last
    · split at last <;> omega
    · split at last <;> omega
  have mark : ∀ cs, readMark? '-' ('-' :: cs) = some cs := fun _ => rfl
  simp only [readDate?, readYear, mark, readPart 2 _ (by decide) month, readPart 2 _ (by decide) day,
    Option.bind_eq_bind, Option.bind_some]
  rw [if_pos ⟨valid, above, below⟩]

/-- A time of day is read back, where a leap second continues the last second of a minute. -/
theorem readTime {hour minute second nanos leap : Nat} (hours : hour < 24) (minutes : minute < 60)
    (seconds : second < 60) (bound : nanos < 1000000000) (leaps : leap = 0 ∨ leap = 1 ∧ second = 59)
    (rest : List Char) :
    readTime? (decimalFixed 2 hour ++ ':' :: (decimalFixed 2 minute ++ ':' ::
      (decimalFixed 2 (second + leap) ++ (fractionText nanos ++ 'Z' :: rest)))) =
    some (hour * 3600 + minute * 60 + second, nanos + leap * 1000000000, 'Z' :: rest) := by
  have mark : ∀ cs, readMark? ':' (':' :: cs) = some cs := fun _ => rfl
  have stays : skipBlanks ('Z' :: rest) = 'Z' :: rest := rfl
  have leap_ : (second + leap) / 60 = leap := by omega
  simp only [readTime?, readPart 2 hour (by decide) (by omega), readPart 2 minute (by decide) (by omega),
    readPart 2 (second + leap) (by decide) (by omega), mark, readNanos bound, stays, leap_,
    Option.bind_eq_bind, Option.bind_some]
  rw [if_pos (by omega)]
  simp only [Option.some.injEq, Prod.mk.injEq, and_true]
  omega

end Front

/-- Every instant in the supported years is read back from its text, if it is in no leap second or in
one at the end of a minute. -/
theorem read?_text {t : Instant} (range : t.inRange = true)
    (leap : t.nanos < 1000000000 ∨ t.seconds % 60 = 59) : read? t.text = some t := by
  have bounds := range
  simp only [inRange, Bool.and_eq_true, decide_eq_true_eq] at bounds
  obtain ⟨above, below⟩ := Date.year_ofDays bounds.1 bounds.2
  have small := t.nanos_lt
  have second : (t.seconds % 86400).toNat = (t.seconds % 86400).toNat / 3600 * 3600 +
      (t.seconds % 86400).toNat / 60 % 60 * 60 + (t.seconds % 86400).toNat % 60 := by omega
  have chars : t.text.toList = t.textChars := by simp [text]
  rw [read?, chars, textChars]
  simp only [List.append_assoc, List.cons_append]
  unfold readChars?
  rw [readDate (Date.valid_ofDays _) above below]
  simp only [Option.bind_eq_bind, Option.bind_some]
  rw [readTime (by omega) (by omega) (by omega) (by omega) (by omega), ← second]
  have offset : readOffset? ['Z'] = some (0, []) := rfl
  have nanos : t.nanos % 1000000000 + t.nanos / 1000000000 * 1000000000 = t.nanos := by omega
  have seconds : (Date.ofDays (t.seconds / 86400)).toDays * 86400 + ((t.seconds % 86400).toNat : Int) -
      0 = t.seconds := by
    rw [Date.toDays_ofDays]
    omega
  simp only [Option.bind_some, offset, nanos, seconds, small, range, dif_pos, if_true]
  rfl

end ConceptLedger.Instant
