import ConceptLedger.Json.Number

/-!
Writing JSON text, on one line or spread over indented lines. Quotes, backslashes and control
characters are escaped, all other characters are written as they are.
-/

namespace ConceptLedger.Json

open Digits

/-- A character as it stands inside a string. -/
def escapeChar (c : Char) : List Char :=
  if c = '"' then ['\\', '"']
  else if c = '\\' then ['\\', '\\']
  else if c = '\x08' then ['\\', 'b']
  else if c = '\x0c' then ['\\', 'f']
  else if c = '\n' then ['\\', 'n']
  else if c = '\r' then ['\\', 'r']
  else if c = '\t' then ['\\', 't']
  else if c.toNat < 0x20 then '\\' :: 'u' :: hexFixed 4 c.toNat
  else [c]

/-- A string in quotes. -/
def quote (s : String) : List Char := '"' :: s.toList.flatMap escapeChar ++ ['"']

mutual

/-- The text on one line. -/
def compactChars : Json → List Char
  | .null => ['n', 'u', 'l', 'l']
  | .bool true => ['t', 'r', 'u', 'e']
  | .bool false => ['f', 'a', 'l', 's', 'e']
  | .int n => intText n
  | .float x => floatText x
  | .str s => quote s
  | .arr [] => ['[', ']']
  | .arr (item :: rest) => '[' :: compactChars item ++ compactItems rest
  | .obj [] => ['\x7b', '\x7d']
  | .obj ((name, value) :: rest) =>
    '\x7b' :: quote name ++ ':' :: compactChars value ++ compactMembers rest

/-- The items after the first one, with the closing bracket. -/
def compactItems : List Json → List Char
  | [] => [']']
  | item :: rest => ',' :: compactChars item ++ compactItems rest

/-- The members after the first one, with the closing brace. -/
def compactMembers : List (String × Json) → List Char
  | [] => ['\x7d']
  | (name, value) :: rest => ',' :: quote name ++ ':' :: compactChars value ++ compactMembers rest

end

/-- The text on one line. -/
def compact (value : Json) : String := String.ofList (compactChars value)

/-- A new line at a level of nesting, two spaces a level. -/
def lineAt (level : Nat) : List Char := '\n' :: List.replicate (2 * level) ' '

mutual

/-- The text with each item and member on a line of its own. -/
def prettyChars (level : Nat) : Json → List Char
  | .arr (item :: rest) =>
    '[' :: lineAt (level + 1) ++ prettyChars (level + 1) item ++ prettyItems level rest
  | .obj ((name, value) :: rest) =>
    '\x7b' :: lineAt (level + 1) ++ quote name ++ ':' :: ' ' :: prettyChars (level + 1) value ++
      prettyMembers level rest
  | .arr [] => ['[', ']']
  | .obj [] => ['\x7b', '\x7d']
  | .null => ['n', 'u', 'l', 'l']
  | .bool true => ['t', 'r', 'u', 'e']
  | .bool false => ['f', 'a', 'l', 's', 'e']
  | .int n => intText n
  | .float x => floatText x
  | .str s => quote s

/-- The items after the first one, with the closing bracket. -/
def prettyItems (level : Nat) : List Json → List Char
  | [] => lineAt level ++ [']']
  | item :: rest =>
    ',' :: lineAt (level + 1) ++ prettyChars (level + 1) item ++ prettyItems level rest

/-- The members after the first one, with the closing brace. -/
def prettyMembers (level : Nat) : List (String × Json) → List Char
  | [] => lineAt level ++ ['\x7d']
  | (name, value) :: rest =>
    ',' :: lineAt (level + 1) ++ quote name ++ ':' :: ' ' :: prettyChars (level + 1) value ++
      prettyMembers level rest

end

/-- The text on indented lines. -/
def pretty (value : Json) : String := String.ofList (prettyChars 0 value)

end ConceptLedger.Json
