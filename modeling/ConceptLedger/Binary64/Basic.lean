import ConceptLedger.Data.Word

/-!
Floating-point numbers of 64 bits, as a sign and a rank among the magnitudes: the finite ones, then
infinity, then what is not a number. All arithmetic is on finite numbers and goes through one rounding
of an exact quotient to the nearest number, ties to even.
-/

namespace ConceptLedger

/-- The number of floats from one power of two to the next, `2 ^ 52`. -/
def Binary64.binade : Nat := 4503599627370496

/-- A number: its sign and its rank among the magnitudes, zero first. The rank is the number spelled
by the 63 low bits of the usual encoding. -/
structure Binary64 where
  negative : Bool
  rank : Nat
  bounded : rank < 2048 * Binary64.binade
deriving DecidableEq

namespace Binary64

/-- Positive zero. -/
def zero : Binary64 := ⟨false, 0, by decide⟩

instance : Inhabited Binary64 := ⟨zero⟩

/-- The 64 bits of the usual encoding. -/
def bits (x : Binary64) : Nat := (if x.negative then Word.half else 0) + x.rank

/-- Whether a number is finite. -/
def isFinite (x : Binary64) : Bool := x.rank < 2047 * binade

/-- Whether it is not a number at all. -/
def isNaN (x : Binary64) : Bool := 2047 * binade < x.rank

/-- Equality of values: the two zeros are equal, and what is not a number is not equal to anything,
itself included. -/
def agrees (x y : Binary64) : Bool :=
  (x.rank == 0 && y.rank == 0) || (!x.isNaN && decide (x = y))

/-- The integer `m` of the exact magnitude `m * 2 ^ q` of a finite number. -/
def significand (x : Binary64) : Nat :=
  if x.rank < binade then x.rank else x.rank % binade + binade

/-- The exponent `q` of the exact magnitude `m * 2 ^ q` of a finite number. -/
def exponent (x : Binary64) : Int :=
  if x.rank < binade then -1074 else (x.rank / binade : Nat) - 1075

/-- The quotient rounded to the nearest integer, halves to the even one. -/
def roundQuotient (num den : Nat) : Nat :=
  let floor := num / den
  let rest := num % den
  if 2 * rest < den then floor
  else if den < 2 * rest then floor + 1
  else floor + floor % 2

/-- The rank of the magnitude nearest to `num / den`, ties to even. It is no finite rank when the
quotient is too large. The unit `2 ^ q` is chosen so that the quotient has 53 bits in it, or is
the smallest unit. -/
def rankOfQuotient (num den : Nat) : Nat :=
  if num = 0 then 0
  else
    let scaled (q : Int) : Nat × Nat := (num * Nat.pow 2 (-q).toNat, den * Nat.pow 2 q.toNat)
    let start : Int := max (-1074) ((num.log2 : Int) - den.log2 - 53)
    let q := if (scaled start).1 / (scaled start).2 < 2 * binade then start else start + 1
    (q + 1074).toNat * binade + roundQuotient (scaled q).1 (scaled q).2

/-- The number nearest to a quotient, or nothing when it is out of range. -/
def ofQuotient? (negative : Bool) (num den : Nat) : Option Binary64 :=
  let rank := rankOfQuotient num den
  if finite : rank < 2047 * binade then
    some ⟨negative, rank, Nat.lt_of_lt_of_le finite (by decide)⟩
  else none

/-- The number nearest to an integer, or nothing when it is out of range. -/
def ofInt? (n : Int) : Option Binary64 := ofQuotient? (decide (n < 0)) n.natAbs 1

/-- The rounded product with the sign of the first factor, for a positive second factor. -/
def scaleUp? (x y : Binary64) : Option Binary64 :=
  let q := x.exponent + y.exponent
  ofQuotient? x.negative (x.significand * y.significand * Nat.pow 2 q.toNat)
    (Nat.pow 2 (-q).toNat)

/-- The rounded quotient with the sign of the dividend, for a positive divisor. -/
def scaleDown? (x y : Binary64) : Option Binary64 :=
  let q := x.exponent - y.exponent
  ofQuotient? x.negative (x.significand * Nat.pow 2 q.toNat)
    (y.significand * Nat.pow 2 (-q).toNat)

end Binary64

end ConceptLedger
