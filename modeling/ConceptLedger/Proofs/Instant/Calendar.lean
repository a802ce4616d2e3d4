import ConceptLedger.Instant.Calendar
import Mathlib.Tactic.Common

/-!
The calendar is faithful: the day of a number exists, has that number, and lies in the supported years
when the number does.
-/

namespace ConceptLedger.Date

/-- Where a day stands in its era of four hundred years: the year, counted from March, and the day of
that year. -/
structure Placed (dayOfEra year dayOfYear : Int) : Prop where
  sum : dayOfEra = 365 * year + year / 4 - year / 100 + dayOfYear
  year_nonneg : 0 ≤ year
  year_lt : year < 400
  day_nonneg : 0 ≤ dayOfYear
  day_le : dayOfYear ≤ 365
  /-- Only leap years have a last day more. -/
  leap : dayOfYear = 365 →
    (year + 1) % 4 = 0 ∧ ((year + 1) % 100 = 0 → (year + 1) % 400 = 0)

theorem placed {d : Int} (first : 0 ≤ d) (last : d < 146097) :
    Placed d ((d - d / 1460 + d / 36524 - d / 146096) / 365)
      (d - (365 * ((d - d / 1460 + d / 36524 - d / 146096) / 365) +
        (d - d / 1460 + d / 36524 - d / 146096) / 365 / 4 -
          (d - d / 1460 + d / 36524 - d / 146096) / 365 / 100)) := by
  generalize century_ : d / 36524 = century
  generalize end_ : d / 146096 = past
  generalize quad_ : d / 1460 = quad
  generalize year_ : (d - quad + century - past) / 365 = year
  generalize leaps_ : year / 4 = leaps
  generalize skipped_ : year / 100 = skipped
  have centuries : century = 0 ∨ century = 1 ∨ century = 2 ∨ century = 3 ∨ century = 4 := by omega
  have ends : past = 0 ∨ past = 1 := by omega
  have skips : skipped = 0 ∨ skipped = 1 ∨ skipped = 2 ∨ skipped = 3 := by omega
  have quarters : year = 4 * leaps ∨ year = 4 * leaps + 1 ∨ year = 4 * leaps + 2 ∨
    year = 4 * leaps + 3 := by omega
  -- within a century the days grow evenly enough with the years
  have bounds : 0 ≤ year ∧ year < 400 ∧ 0 ≤ d - (365 * year + leaps - skipped) ∧
      d - (365 * year + leaps - skipped) ≤ 365 ∧
      (d - (365 * year + leaps - skipped) = 365 →
        (year + 1) % 4 = 0 ∧ ((year + 1) % 100 = 0 → (year + 1) % 400 = 0)) := by
    rcases centuries with rfl | rfl | rfl | rfl | rfl <;> rcases ends with rfl | rfl <;>
      rcases skips with rfl | rfl | rfl | rfl <;> rcases quarters with same | same | same | same <;>
        omega
  obtain ⟨low, high, start, finish, leap⟩ := bounds
  exact ⟨by omega, low, high, start, finish, leap⟩

/-- The day of a year that is counted from March. -/
def ofYearDay (year dayOfYear : Int) : Date :=
  let month := (5 * dayOfYear + 2) / 153
  let day := dayOfYear - (153 * month + 2) / 5 + 1
  let month' := if month < 10 then month + 3 else month - 9
  ⟨if month' ≤ 2 then year + 1 else year, month'.toNat, day.toNat⟩

/-- The day of a number by its place in its era. -/
theorem ofDays_eq (n : Int) : ∃ era year dayOfYear dayOfEra, Placed dayOfEra year dayOfYear ∧
    n + 719468 = era * 146097 + dayOfEra ∧ ofDays n = ofYearDay (year + era * 400) dayOfYear :=
  ⟨(n + 719468) / 146097, _, _, (n + 719468) % 146097, placed (by omega) (by omega), by omega, rfl⟩

theorem Placed.toDays {dayOfEra year dayOfYear : Int} (placed : Placed dayOfEra year dayOfYear)
    (era : Int) :
    (ofYearDay (year + era * 400) dayOfYear).toDays = era * 146097 + dayOfEra - 719468 := by
  obtain ⟨sum, low, high, start, finish, -⟩ := placed
  unfold ofYearDay Date.toDays
  dsimp only
  generalize month_ : (5 * dayOfYear + 2) / 153 = month
  have months : 0 ≤ month ∧ month < 12 := by omega
  by_cases early : month < 10
  · simp only [early, if_true]
    split <;> split <;> omega
  · simp only [early, if_false]
    split <;> split <;> omega

theorem Placed.valid {dayOfEra year dayOfYear : Int} (placed : Placed dayOfEra year dayOfYear)
    (era : Int) : (ofYearDay (year + era * 400) dayOfYear).valid = true := by
  obtain ⟨-, low, high, start, finish, leap⟩ := placed
  have months : (5 * dayOfYear + 2) / 153 = 0 ∨ (5 * dayOfYear + 2) / 153 = 1 ∨
      (5 * dayOfYear + 2) / 153 = 2 ∨ (5 * dayOfYear + 2) / 153 = 3 ∨
      (5 * dayOfYear + 2) / 153 = 4 ∨ (5 * dayOfYear + 2) / 153 = 5 ∨
      (5 * dayOfYear + 2) / 153 = 6 ∨ (5 * dayOfYear + 2) / 153 = 7 ∨
      (5 * dayOfYear + 2) / 153 = 8 ∨ (5 * dayOfYear + 2) / 153 = 9 ∨
      (5 * dayOfYear + 2) / 153 = 10 ∨ (5 * dayOfYear + 2) / 153 = 11 := by omega
  unfold ofYearDay Date.valid monthLength isLeap
  rcases months with month | month | month | month | month | month | month | month | month | month |
    month | month <;> rw [month] <;> simp <;> (try split) <;> omega

/-- The day of a number has that number. -/
theorem toDays_ofDays (n : Int) : (ofDays n).toDays = n := by
  obtain ⟨era, year, dayOfYear, dayOfEra, placed, sum, same⟩ := ofDays_eq n
  rw [same, placed.toDays]
  omega

theorem valid_ofDays (n : Int) : (ofDays n).valid = true := by
  obtain ⟨era, year, dayOfYear, dayOfEra, placed, -, same⟩ := ofDays_eq n
  rw [same]
  exact placed.valid era

/-- The days between the first and the last one are in the supported years. -/
theorem year_ofDays {n : Int} (above : first.toDays ≤ n) (below : n ≤ last.toDays) :
    first.year ≤ (ofDays n).year ∧ (ofDays n).year ≤ last.year := by
  have start : first.toDays = -96465292 := by decide
  have finish : last.toDays = 95026236 := by decide
  obtain ⟨era, year, dayOfYear, dayOfEra, ⟨sum, low, high, begins, ends, -⟩, days, same⟩ := ofDays_eq n
  rw [same]
  have eras : -656 ≤ era ∧ era ≤ 655 := by omega
  unfold ofYearDay first last
  dsimp only
  by_cases early : (5 * dayOfYear + 2) / 153 < 10
  · simp only [early, if_true]
    split <;> omega
  · simp only [early, if_false]
    split <;> omega

end ConceptLedger.Date
