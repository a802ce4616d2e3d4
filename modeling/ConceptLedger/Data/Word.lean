/-!
Words of 64 bits, and which integers they hold.
-/

namespace ConceptLedger.Word

/-- The number of words of 64 bits. -/
def count : Nat := 18446744073709551616

/-- The number of words that are not negative when a word has a sign: half of all. -/
def half : Nat := 9223372036854775808

/-- The word of an integer, if a word without a sign holds it. -/
def unsigned? (n : Int) : Option UInt64 :=
  if 0 ≤ n ∧ n < count then some (UInt64.ofNat n.toNat) else none

/-- The word of an integer, if a word with a sign holds it. -/
def signed? (n : Int) : Option Int64 :=
  if -(half : Int) ≤ n ∧ n < half then some (Int64.ofInt n) else none

end ConceptLedger.Word
