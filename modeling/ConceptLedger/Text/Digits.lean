/-!
Natural numbers as digits: decimal text without padding, fixed-width text in a base up to sixteen,
and the values of digit characters.
-/

namespace ConceptLedger.Digits

/-- The value of a decimal digit. -/
def decimalValue? (c : Char) : Option Nat :=
  if '0' ≤ c ∧ c ≤ '9' then some (c.toNat - '0'.toNat) else none

/-- The value of a hexadecimal digit in either case. -/
def hexValue? (c : Char) : Option Nat :=
  if '0' ≤ c ∧ c ≤ '9' then some (c.toNat - '0'.toNat)
  else if 'a' ≤ c ∧ c ≤ 'f' then some (c.toNat - 'a'.toNat + 10)
  else if 'A' ≤ c ∧ c ≤ 'F' then some (c.toNat - 'A'.toNat + 10)
  else none

/-- The lower-case digit of a value below sixteen. -/
def hexDigit (n : Nat) : Char :=
  if n < 10 then Char.ofNat ('0'.toNat + n) else Char.ofNat ('a'.toNat + (n - 10))

/-- The number that a list of digit values spells, most significant first. -/
def value (base : Nat) (digits : List Nat) : Nat := digits.foldl (fun n d => n * base + d) 0

/-- The last `width` digits of a number in a base, most significant first. -/
def fixed (base : Nat) : Nat → Nat → List Nat
  | 0, _ => []
  | width + 1, n => fixed base width (n / base) ++ [n % base]

/-- The last `width` decimal digits of a number. -/
def decimalFixed (width n : Nat) : List Char := (fixed 10 width n).map hexDigit

/-- The last `width` hexadecimal digits of a number. -/
def hexFixed (width n : Nat) : List Char := (fixed 16 width n).map hexDigit

/-- The decimal digits of a number, without leading zeros. -/
def decimal (n : Nat) : List Char := (toString n).toList

/-- Decimal digits, with zeros in front up to the given width. -/
def decimalPadded (width n : Nat) : List Char :=
  List.replicate (width - (decimal n).length) '0' ++ decimal n

/-- The number that a non-empty list of decimal digits spells. -/
def readDecimal? (cs : List Char) : Option Nat :=
  if cs.isEmpty then none else (cs.mapM decimalValue?).map (value 10)

/-- Splits the decimal digits off the front of a text. -/
def spanDecimal (cs : List Char) : List Char × List Char :=
  cs.span fun c => (decimalValue? c).isSome

end ConceptLedger.Digits
