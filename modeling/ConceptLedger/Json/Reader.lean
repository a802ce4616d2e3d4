import ConceptLedger.Json.Number

/-!
Reading JSON text. Strings hold no bare control characters and no lone halves of a surrogate pair;
arrays and objects nest at most 127 deep.
-/

namespace ConceptLedger.Json

open Digits

/-- Blanks between tokens: space, tab, line feed and carriage return. -/
def skipSpace (cs : List Char) : List Char :=
  cs.dropWhile fun c => c = ' ' || c = '\t' || c = '\n' || c = '\r'

/-- The character of one code point. -/
def charOf? (n : Nat) : Option Char :=
  if h : n.isValidChar then some (Char.ofNatAux n h) else none

/-- Reads four hexadecimal digits. -/
def readUnit? : List Char → Option (Nat × List Char)
  | a :: b :: c :: d :: rest =>
    ([a, b, c, d].mapM hexValue?).map fun ds => (value 16 ds, rest)
  | _ => none

/-- Reads a code point after `\u`: one unit, or the two units of a surrogate pair. -/
def readCodePoint? (cs : List Char) : Option (Char × List Char) := do
  let (high, rest) ← readUnit? cs
  if 0xD800 ≤ high ∧ high < 0xDC00 then
    match rest with
    | '\\' :: 'u' :: more =>
      let (low, rest) ← readUnit? more
      if 0xDC00 ≤ low ∧ low < 0xE000 then
        (charOf? (0x10000 + (high - 0xD800) * 0x400 + (low - 0xDC00))).map (·, rest)
      else none
    | _ => none
  else (charOf? high).map (·, rest)

/-- The character of a one-letter escape. -/
def shortEscape? : Char → Option Char
  | '"' => some '"'
  | '\\' => some '\\'
  | '/' => some '/'
  | 'b' => some '\x08'
  | 'f' => some '\x0c'
  | 'n' => some '\n'
  | 'r' => some '\r'
  | 't' => some '\t'
  | _ => none

/-- Reads the inside of a string up to the closing quote; `done` holds what was read, reversed. -/
def readChars? : Nat → List Char → List Char → Option (String × List Char)
  | 0, _, _ => none
  | fuel + 1, done, cs =>
    match cs with
    | '"' :: rest => some (String.ofList done.reverse, rest)
    | '\\' :: 'u' :: rest =>
      match readCodePoint? rest with
      | some (c, rest) => readChars? fuel (c :: done) rest
      | none => none
    | '\\' :: letter :: rest =>
      match shortEscape? letter with
      | some c => readChars? fuel (c :: done) rest
      | none => none
    | c :: rest => if c.toNat < 0x20 ∨ c = '\\' then none else readChars? fuel (c :: done) rest
    | [] => none

/-- Reads a string after its opening quote. -/
def readString? (cs : List Char) : Option (String × List Char) := readChars? (cs.length + 1) [] cs

mutual

/-- Reads a value with at most `depth - 1` levels of arrays and objects. -/
def readValue? (depth : Nat) : Nat → List Char → Option (Json × List Char)
  | 0, _ => none
  | fuel + 1, cs =>
    match skipSpace cs with
    | 'n' :: 'u' :: 'l' :: 'l' :: rest => some (.null, rest)
    | 't' :: 'r' :: 'u' :: 'e' :: rest => some (.bool true, rest)
    | 'f' :: 'a' :: 'l' :: 's' :: 'e' :: rest => some (.bool false, rest)
    | '"' :: rest => (readString? rest).map fun r => (.str r.1, r.2)
    | '[' :: rest =>
      if depth ≤ 1 then none
      else
        match skipSpace rest with
        | ']' :: rest => some (.arr [], rest)
        | rest => (readItems? (depth - 1) fuel rest).map fun r => (.arr r.1, r.2)
    | '\x7b' :: rest =>
      if depth ≤ 1 then none
      else
        match skipSpace rest with
        | '\x7d' :: rest => some (.obj [], rest)
        | rest => (readMembers? (depth - 1) fuel rest).map fun r => (.obj r.1, r.2)
    | rest => readNumber? rest

/-- Reads the items of an array from the first one to the closing bracket. -/
def readItems? (depth : Nat) : Nat → List Char → Option (List Json × List Char)
  | 0, _ => none
  | fuel + 1, cs =>
    match readValue? depth fuel cs with
    | none => none
    | some (item, rest) =>
      match skipSpace rest with
      | ']' :: rest => some ([item], rest)
      | ',' :: rest => (readItems? depth fuel rest).map fun r => (item :: r.1, r.2)
      | _ => none

/-- Reads the members of an object from the first one to the closing brace. -/
def readMembers? (depth : Nat) : Nat → List Char → Option (List (String × Json) × List Char)
  | 0, _ => none
  | fuel + 1, cs =>
    match skipSpace cs with
    | '"' :: rest =>
      match readString? rest with
      | none => none
      | some (name, rest) =>
        match skipSpace rest with
        | ':' :: rest =>
          match readValue? depth fuel rest with
          | none => none
          | some (value, rest) =>
            match skipSpace rest with
            | '\x7d' :: rest => some ([(name, value)], rest)
            | ',' :: rest =>
              (readMembers? depth fuel rest).map fun r => ((name, value) :: r.1, r.2)
            | _ => none
        | _ => none
    | _ => none

end

/-- The nesting limit. -/
def depthLimit : Nat := 128

/-- Reads a text that holds one value and blanks around it. -/
def read? (text : String) : Option Json :=
  let cs := text.toList
  match readValue? depthLimit (2 * cs.length + 2) cs with
  | some (value, rest) => if skipSpace rest = [] then some value else none
  | none => none

end ConceptLedger.Json
