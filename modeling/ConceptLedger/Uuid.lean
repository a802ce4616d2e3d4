import ConceptLedger.Text.Digits

/-!
Universally unique identifiers: 128 bits, written as 32 hexadecimal digits, plain or in groups of
8, 4, 4, 4 and 12. Reading also takes the grouped form in braces and after `urn:uuid:`.
-/

namespace ConceptLedger

/-- An identifier of 128 bits, ordered as a number. -/
structure Uuid where
  bits : BitVec 128
deriving DecidableEq

namespace Uuid

instance : Inhabited Uuid := ⟨⟨0⟩⟩

instance : Ord Uuid := ⟨compareOn Uuid.bits⟩

instance : Std.TransOrd Uuid := inferInstanceAs (Std.TransCmp (compareOn Uuid.bits))

instance : Std.LawfulEqOrd Uuid where
  eq_of_compare {a b} same := by
    have same : compare a.bits b.bits = .eq := same
    cases a
    cases b
    congr
    exact Std.LawfulEqCmp.eq_of_compare same

/-- The identifier whose bits are those of a number below `2 ^ 128`. -/
def ofNat (n : Nat) : Uuid := ⟨BitVec.ofNat 128 n⟩

/-- The 32 digits, in lower case. -/
def digits (u : Uuid) : List Char := Digits.hexFixed 32 u.bits.toNat

/-- Puts hyphens between groups of 8, 4, 4, 4 and the remaining digits. -/
def group (ds : List Char) : List Char :=
  ds.take 8 ++ '-' :: (ds.drop 8).take 4 ++ '-' :: (ds.drop 12).take 4 ++
    '-' :: (ds.drop 16).take 4 ++ '-' :: ds.drop 20

/-- The grouped text, which is how an identifier is written. -/
def text (u : Uuid) : String := String.ofList (group u.digits)

/-- Reads 32 digits. -/
def readDigits? (cs : List Char) : Option Uuid :=
  if cs.length = 32 then (cs.mapM Digits.hexValue?).map fun ds => ofNat (Digits.value 16 ds)
  else none

/-- Reads the grouped form: 36 characters with hyphens at places 8, 13, 18 and 23. -/
def readGrouped? (cs : List Char) : Option Uuid :=
  let ds := cs.take 8 ++ (cs.drop 9).take 4 ++ (cs.drop 14).take 4 ++ (cs.drop 19).take 4 ++
    cs.drop 24
  if group ds = cs then readDigits? ds else none

/-- The text that announces an identifier in a name, compared without regard to case. -/
def announcement : List Char := ['u', 'r', 'n', ':', 'u', 'u', 'i', 'd', ':']

/-- Reads any of the four spellings. -/
def readChars? (cs : List Char) : Option Uuid :=
  match cs.length with
  | 32 => readDigits? cs
  | 36 => readGrouped? cs
  | 38 =>
    if cs.head? = some '\x7b' ∧ cs.getLast? = some '\x7d' then readGrouped? (cs.drop 1).dropLast
    else none
  | 45 =>
    if (cs.take 9).map Char.toLower = announcement then readGrouped? (cs.drop 9) else none
  | _ => none

/-- Reads the text of an identifier in any of the four spellings. -/
def read? (s : String) : Option Uuid := readChars? s.toList

/-- The identifier without set bits. -/
def nil : Uuid := ⟨0⟩

end Uuid

end ConceptLedger
