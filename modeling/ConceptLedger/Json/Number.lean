import ConceptLedger.Binary64.Shortest
import ConceptLedger.Data.Word
import ConceptLedger.Json.Basic
import ConceptLedger.Text.Digits

/-!
Number text. An integer without fraction and exponent is kept exactly when it fits 64 bits.
Any other number is its significand, cut to 64 bits, rounded and then scaled by powers of ten that
are themselves rounded. A float is written by its shortest digits, positionally below `10 ^ 16`.
-/

namespace ConceptLedger.Json

open Digits

/-- The greatest significand that is kept digit by digit. -/
def significandLimit : Nat := Word.count

/-- Reads digits into a significand while it stays below the limit. Gives the significand, the
number of digits taken in, the number of further digits, and the rest. -/
def takeSignificand (start : Nat) (cs : List Char) : Nat × Nat × Nat × List Char :=
  let (digits, rest) := spanDecimal cs
  let rec take (n taken : Nat) : List Char → Nat × Nat × Nat
    | [] => (n, taken, 0)
    | c :: more =>
      let next := n * 10 + (decimalValue? c).getD 0
      if next < significandLimit then take next (taken + 1) more
      else (n, taken, more.length + 1)
  let (n, taken, left) := take start 0 digits
  (n, taken, left, rest)

/-- The rounded power of ten, for exponents up to 308. -/
def tenPower? (k : Nat) : Option Binary64 := Binary64.ofQuotient? false (Nat.pow 10 k) 1

/-- Scales by a power of ten: one rounded step when the exponent is at most 308, else downward
steps of 308. There is no number when the result is too large. -/
def scaleByTen? (x : Binary64) (exponent : Int) : Nat → Option Binary64
  | 0 => none
  | fuel + 1 =>
    if exponent.natAbs ≤ 308 then
      (tenPower? exponent.natAbs).bind fun power =>
        if 0 ≤ exponent then x.scaleUp? power else x.scaleDown? power
    else if x.rank = 0 then some x
    else if 0 ≤ exponent then none
    else
      (tenPower? 308).bind fun power =>
        (x.scaleDown? power).bind fun y => scaleByTen? y (exponent + 308) fuel

/-- The float of a significand and a decimal exponent. -/
def floatOf? (negative : Bool) (significand : Nat) (exponent : Int) : Option Json := do
  let x ← Binary64.ofQuotient? false significand 1
  let y ← scaleByTen? x exponent (exponent.natAbs / 308 + 2)
  some (.float { y with negative })

/-- The greatest exponent that is read digit by digit. -/
def exponentLimit : Nat := 2147483648

/-- Reads the exponent after its letter and builds the float. An exponent beyond all bounds gives
zero when it is negative or the significand is zero. -/
def readExponent? (negative : Bool) (significand : Nat) (start : Int) (cs : List Char) :
    Option (Json × List Char) :=
  let (down, cs) :=
    match cs with
    | '+' :: rest => (false, rest)
    | '-' :: rest => (true, rest)
    | _ => (false, cs)
  let (digits, rest) := spanDecimal cs
  if digits.isEmpty then none
  else
    let size := value 10 (digits.filterMap decimalValue?)
    if size < exponentLimit then
      (floatOf? negative significand (if down then start - size else start + size)).map (·, rest)
    else if significand ≠ 0 ∧ ¬ down then none
    else some (.float { Binary64.zero with negative }, rest)

/-- Reads what follows the significand of a float: an exponent or nothing. -/
def readFloatEnd? (negative : Bool) (significand : Nat) (exponent : Int) (cs : List Char) :
    Option (Json × List Char) :=
  match cs with
  | 'e' :: rest | 'E' :: rest => readExponent? negative significand exponent rest
  | _ => (floatOf? negative significand exponent).map (·, cs)

/-- Reads the digits after the point; there is at least one. Those beyond the significand's limit
do not count. -/
def readFraction? (negative : Bool) (significand : Nat) (exponent : Int) (cs : List Char) :
    Option (Json × List Char) :=
  match takeSignificand significand cs with
  | (n, taken, left, rest) =>
    if taken + left = 0 then none
    else readFloatEnd? negative n (exponent - taken) rest

/-- The number without fraction and exponent: an integer where 64 bits hold it. Minus zero is a
float, for only floats have it. -/
def wholeNumber? (negative : Bool) (n : Nat) : Option Json :=
  if negative then
    if 0 < n ∧ n ≤ Word.half then some (.int (-n)) else floatOf? true n 0
  else some (.int n)

/-- Reads a number after its sign. The integer part is a single zero or starts with another
digit. -/
def readUnsigned? (negative : Bool) (cs : List Char) : Option (Json × List Char) :=
  match cs with
  | '0' :: '.' :: rest => readFraction? negative 0 0 rest
  | '0' :: rest =>
    if (rest.head?.bind decimalValue?).isSome then none
    else if rest.head? = some 'e' ∨ rest.head? = some 'E' then readFloatEnd? negative 0 0 rest
    else (wholeNumber? negative 0).map (·, rest)
  | _ =>
    match takeSignificand 0 cs with
    | (_, 0, _, _) => none
    | (n, _, left, '.' :: rest) => readFraction? negative n left rest
    | (n, _, 0, rest) =>
      if rest.head? = some 'e' ∨ rest.head? = some 'E' then readFloatEnd? negative n 0 rest
      else (wholeNumber? negative n).map (·, rest)
    | (n, _, left, rest) => readFloatEnd? negative n left rest

/-- Reads a number. -/
def readNumber? : List Char → Option (Json × List Char)
  | '-' :: rest => readUnsigned? true rest
  | cs => readUnsigned? false cs

/-- The text of an integer. -/
def intText (n : Int) : List Char :=
  if n < 0 then '-' :: decimal n.natAbs else decimal n.natAbs

/-- The text of shortest digits `d * 10 ^ k`: positional while the point stands at most sixteen
places after the first digit or five zeros before it, else with one digit before the point and an
exponent. A positional number always shows a point. -/
def placeDigits (d : Nat) (k : Int) : List Char :=
  let digits := decimal d
  let point : Int := digits.length + k
  if 0 ≤ k ∧ point ≤ 16 then digits ++ List.replicate k.toNat '0' ++ ['.', '0']
  else if 0 < point ∧ point ≤ 16 then
    digits.take point.toNat ++ '.' :: digits.drop point.toNat
  else if -5 < point ∧ point ≤ 0 then
    '0' :: '.' :: (List.replicate (-point).toNat '0' ++ digits)
  else
    digits.take 1 ++ (if 1 < digits.length then '.' :: digits.drop 1 else []) ++
      'e' :: intText (point - 1)

/-- The text of a float. JSON has no numbers that are not finite, and `null` stands for them. -/
def floatText (x : Binary64) : List Char :=
  if x.isFinite then
    let (d, k) := x.shortest
    let body := if x.rank = 0 then ['0', '.', '0'] else placeDigits d k
    if x.negative then '-' :: body else body
  else ['n', 'u', 'l', 'l']

end ConceptLedger.Json
