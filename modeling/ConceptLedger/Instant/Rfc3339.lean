import ConceptLedger.Instant.Basic
import ConceptLedger.Text.Blank
import ConceptLedger.Text.Digits

/-!
Instants as RFC 3339 text. Writing uses UTC and the fewest of 0, 3, 6 or 9 fraction digits that
lose nothing. Reading takes any offset and is lenient: blanks may stand before each number and
sign, numbers may have fewer digits, years may be signed.
-/

namespace ConceptLedger.Instant

open Digits

/-- A year: four digits, or a sign and at least four digits outside 0 to 9999. -/
def yearText (year : Int) : List Char :=
  if 0 ≤ year ∧ year ≤ 9999 then decimalFixed 4 year.toNat
  else (if year < 0 then '-' else '+') :: decimalPadded 4 year.natAbs

/-- The fraction of a second: nothing, or a point and 3, 6 or 9 digits. -/
def fractionText (nanos : Nat) : List Char :=
  if nanos = 0 then []
  else if nanos % 1000000 = 0 then '.' :: decimalFixed 3 (nanos / 1000000)
  else if nanos % 1000 = 0 then '.' :: decimalFixed 6 (nanos / 1000)
  else '.' :: decimalFixed 9 nanos

/-- The text of an instant. A leap second is written as second 60. -/
def textChars (t : Instant) : List Char :=
  let date := Date.ofDays (t.seconds / 86400)
  let second := (t.seconds % 86400).toNat
  let leap := t.nanos / 1000000000
  yearText date.year ++ '-' :: decimalFixed 2 date.month ++ '-' :: decimalFixed 2 date.day ++
    'T' :: decimalFixed 2 (second / 3600) ++ ':' :: decimalFixed 2 (second / 60 % 60) ++
    ':' :: decimalFixed 2 (second % 60 + leap) ++ fractionText (t.nanos % 1000000000) ++ ['Z']

/-- The text of an instant. -/
def text (t : Instant) : String := String.ofList t.textChars

/-- Reads at least one and at most `width` decimal digits. -/
def readDigits? (width : Nat) (cs : List Char) : Option (Nat × List Char) :=
  let taken := (cs.take width).takeWhile fun c => (decimalValue? c).isSome
  (readDecimal? taken).map (·, cs.drop taken.length)

/-- Reads a number of at most `width` digits, after blanks. -/
def readNumber? (width : Nat) (cs : List Char) : Option (Nat × List Char) :=
  readDigits? width (skipBlanks cs)

/-- Reads a year, after blanks: up to four digits, or a sign and any number of digits. -/
def readYear? (cs : List Char) : Option (Int × List Char) :=
  match skipBlanks cs with
  | '-' :: rest => (readDigits? rest.length rest).map fun r => (-(r.1 : Int), r.2)
  | '+' :: rest => (readDigits? rest.length rest).map fun r => (r.1, r.2)
  | rest => (readDigits? 4 rest).map fun r => (r.1, r.2)

/-- Reads a sign, after blanks. -/
def readMark? (mark : Char) (cs : List Char) : Option (List Char) :=
  match skipBlanks cs with
  | c :: rest => if c = mark then some rest else none
  | [] => none

/-- Reads the fraction after a point, if there is one, in nanoseconds; digits after the ninth are
dropped. -/
def readFraction? : List Char → Option (Nat × List Char)
  | '.' :: rest =>
    (readDigits? 9 rest).map fun r =>
      (r.1 * Nat.pow 10 (9 - (rest.length - r.2.length)),
        r.2.dropWhile fun c => (decimalValue? c).isSome)
  | cs => some (0, cs)

/-- Reads two digits. -/
def readPair? : List Char → Option (Nat × List Char)
  | a :: b :: rest =>
    match decimalValue? a, decimalValue? b with
    | some x, some y => some (10 * x + y, rest)
    | _, _ => none
  | _ => none

/-- Reads the offset from UTC, in seconds: `Z`, `UTC`, or a sign, hours and minutes. -/
def readOffset? (cs : List Char) : Option (Int × List Char) :=
  let signed (negative : Bool) (cs : List Char) : Option (Int × List Char) := do
    let (hours, rest) ← readPair? cs
    let (minutes, rest) ← readPair? (rest.dropWhile fun c => c = ':' || isBlank c)
    if minutes < 60 then
      let size : Int := hours * 3600 + minutes * 60
      some (if negative then -size else size, rest)
    else none
  match cs with
  | 'Z' :: rest | 'z' :: rest => some (0, rest)
  | '+' :: rest => signed false rest
  | '-' :: rest | '−' :: rest => signed true rest
  | a :: b :: c :: rest =>
    if [a, b, c].map Char.toUpper = ['U', 'T', 'C'] then some (0, rest) else none
  | _ => none

/-- Reads a day. -/
def readDate? (cs : List Char) : Option (Date × List Char) := do
  let (year, cs) ← readYear? cs
  let (month, cs) ← readNumber? 2 (← readMark? '-' cs)
  let (day, cs) ← readNumber? 2 (← readMark? '-' cs)
  let date : Date := ⟨year, month, day⟩
  if date.valid ∧ Date.first.year ≤ year ∧ year ≤ Date.last.year then some (date, cs) else none

/-- Reads a time of day, in seconds and nanoseconds. Second 60 is the second before it with a
billion nanoseconds more. -/
def readTime? (cs : List Char) : Option (Nat × Nat × List Char) := do
  let (hour, cs) ← readNumber? 2 cs
  let (minute, cs) ← readNumber? 2 (← readMark? ':' cs)
  let (second, cs) ← readNumber? 2 (← readMark? ':' cs)
  let (nanos, cs) ← readFraction? cs
  if hour < 24 ∧ minute < 60 ∧ second ≤ 60 then
    let leap := second / 60
    some (hour * 3600 + minute * 60 + (second - leap), nanos + leap * 1000000000, skipBlanks cs)
  else none

/-- Reads the text of an instant in the supported years. -/
def readChars? (cs : List Char) : Option Instant := do
  let (date, cs) ← readDate? cs
  let cs ← match cs with
    | 'T' :: rest | 't' :: rest | ' ' :: rest => some rest
    | _ => none
  let (second, nanos, cs) ← readTime? cs
  let (offset, cs) ← readOffset? cs
  if skipBlanks cs = [] ∧ -86400 < offset ∧ offset < 86400 then
    if h : nanos < 2000000000 then
      let t : Instant := ⟨date.toDays * 86400 + second - offset, nanos, h⟩
      if t.inRange then some t else none
    else none
  else none

/-- Reads the text of an instant. -/
def read? (s : String) : Option Instant := readChars? s.toList

end ConceptLedger.Instant
