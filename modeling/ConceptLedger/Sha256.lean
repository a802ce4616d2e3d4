import ConceptLedger.Text.Digits

/-!
SHA-256 digests. A message is padded to whole blocks of sixteen words; each block is mixed into a
state of eight words in sixty-four rounds, whose words come from a window of the last sixteen.
-/

namespace ConceptLedger.Sha256

/-- The round constants. -/
def roundConstants : List UInt32 :=
  [0x428a2f98, 0x71374491, 0xb5c0fbcf, 0xe9b5dba5, 0x3956c25b, 0x59f111f1, 0x923f82a4,
    0xab1c5ed5, 0xd807aa98, 0x12835b01, 0x243185be, 0x550c7dc3, 0x72be5d74, 0x80deb1fe,
    0x9bdc06a7, 0xc19bf174, 0xe49b69c1, 0xefbe4786, 0x0fc19dc6, 0x240ca1cc, 0x2de92c6f,
    0x4a7484aa, 0x5cb0a9dc, 0x76f988da, 0x983e5152, 0xa831c66d, 0xb00327c8, 0xbf597fc7,
    0xc6e00bf3, 0xd5a79147, 0x06ca6351, 0x14292967, 0x27b70a85, 0x2e1b2138, 0x4d2c6dfc,
    0x53380d13, 0x650a7354, 0x766a0abb, 0x81c2c92e, 0x92722c85, 0xa2bfe8a1, 0xa81a664b,
    0xc24b8b70, 0xc76c51a3, 0xd192e819, 0xd6990624, 0xf40e3585, 0x106aa070, 0x19a4c116,
    0x1e376c08, 0x2748774c, 0x34b0bcb5, 0x391c0cb3, 0x4ed8aa4a, 0x5b9cca4f, 0x682e6ff3,
    0x748f82ee, 0x78a5636f, 0x84c87814, 0x8cc70208, 0x90befffa, 0xa4506ceb, 0xbef9a3f7,
    0xc67178f2]

/-- The state of eight words. -/
structure State where
  a : UInt32
  b : UInt32
  c : UInt32
  d : UInt32
  e : UInt32
  f : UInt32
  g : UInt32
  h : UInt32

namespace State

/-- The state before the first block. -/
def initial : State :=
  ⟨0x6a09e667, 0xbb67ae85, 0x3c6ef372, 0xa54ff53a, 0x510e527f, 0x9b05688c, 0x1f83d9ab,
    0x5be0cd19⟩

/-- The words in order. -/
def words (s : State) : List UInt32 := [s.a, s.b, s.c, s.d, s.e, s.f, s.g, s.h]

/-- The sums of the words of two states. -/
def add (s t : State) : State :=
  ⟨s.a + t.a, s.b + t.b, s.c + t.c, s.d + t.d, s.e + t.e, s.f + t.f, s.g + t.g, s.h + t.h⟩

end State

/-- Turns a word to the right. -/
def turn (x : UInt32) (n : UInt32) : UInt32 := (x >>> n) ||| (x <<< (32 - n))

/-- One round with its constant and its word. -/
def round (s : State) (constant word : UInt32) : State :=
  let high := turn s.e 6 ^^^ turn s.e 11 ^^^ turn s.e 25
  let choice := (s.e &&& s.f) ^^^ (~~~s.e &&& s.g)
  let mixed := s.h + high + choice + constant + word
  let low := turn s.a 2 ^^^ turn s.a 13 ^^^ turn s.a 22
  let majority := (s.a &&& s.b) ^^^ (s.a &&& s.c) ^^^ (s.b &&& s.c)
  ⟨mixed + low + majority, s.a, s.b, s.c, s.d + mixed, s.e, s.f, s.g⟩

/-- The word that follows a window of sixteen words. -/
def nextWord (window : List UInt32) : UInt32 :=
  let near := window.getD 14 0
  let far := window.getD 1 0
  (turn near 17 ^^^ turn near 19 ^^^ (near >>> 10)) + window.getD 9 0 +
    (turn far 7 ^^^ turn far 18 ^^^ (far >>> 3)) + window.getD 0 0

/-- Mixes a block of sixteen words into a state. -/
def compress (s : State) (block : List UInt32) : State :=
  let step (pair : State × List UInt32) (constant : UInt32) : State × List UInt32 :=
    (round pair.1 constant (pair.2.getD 0 0), pair.2.drop 1 ++ [nextWord pair.2])
  s.add (roundConstants.foldl step (s, block)).1

/-- The number of zero bytes that bring a message, the mark and the length to whole blocks. -/
def zeros (size : Nat) : Nat := (119 - size % 64) % 64

/-- A message with the mark, the zeros and its length in bits. -/
def pad (message : List UInt8) : List UInt8 :=
  let bits := 8 * message.length
  message ++ 0x80 :: List.replicate (zeros message.length) 0 ++
    (Digits.fixed 256 8 bits).map UInt8.ofNat

/-- The big-endian words of a list of bytes. -/
def wordsOf : List UInt8 → List UInt32
  | a :: b :: c :: d :: rest =>
    UInt32.ofNat (Digits.value 256 [a.toNat, b.toNat, c.toNat, d.toNat]) :: wordsOf rest
  | _ => []

/-- The groups of sixteen words. -/
def blocks (words : List UInt32) : List (List UInt32) :=
  if words.length < 16 then [] else words.take 16 :: blocks (words.drop 16)
termination_by words.length
decreasing_by simp only [List.length_drop]; omega

/-- The digest of a message, as eight words. -/
def digest (message : List UInt8) : List UInt32 :=
  ((blocks (wordsOf (pad message))).foldl compress State.initial).words

/-- The digest of a text in UTF-8, as 64 hexadecimal digits. -/
def checksum (text : String) : String :=
  String.ofList ((digest text.toUTF8.toList).flatMap fun w => Digits.hexFixed 8 w.toNat)

end ConceptLedger.Sha256
