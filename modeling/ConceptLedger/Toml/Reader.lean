import ConceptLedger.Data.Word
import ConceptLedger.Instant.Calendar
import ConceptLedger.Text.Digits
import ConceptLedger.Toml.Basic

/-!
Reading TOML text. Each reader takes characters from the front of a text and answers what it read
with the rest, or nothing. The main reader is `Toml.read?`, for a whole document.
-/

namespace ConceptLedger.Toml

open Digits

/-! ### Blanks and comments -/

/-- Space and tab. -/
def isSpace (c : Char) : Bool := c = ' ' || c = '\t'

/-- A text without the spaces and tabs at its front. -/
def skipSpace (cs : List Char) : List Char := cs.dropWhile isSpace

/-- A character that may stand anywhere in a line: all but control characters other than tab. -/
def isPrintable (c : Char) : Bool := c = '\t' || (0x20 ≤ c.toNat && c.toNat ≠ 0x7F)

/-- Takes a line break off the front of a text. -/
def lineBreak? : List Char → Option (List Char)
  | '\n' :: rest => some rest
  | '\r' :: '\n' :: rest => some rest
  | _ => none

/-- A text without the comment at its front, if there is one. -/
def skipComment : List Char → List Char
  | '#' :: rest => rest.dropWhile isPrintable
  | cs => cs

/-- Takes the end of a line: spaces, a comment, and a line break unless the text ends. -/
def endLine? (cs : List Char) : Option (List Char) :=
  match skipComment (skipSpace cs) with
  | [] => some []
  | rest => lineBreak? rest

/-- A text without the blanks, comments and line breaks at its front. A comment must be followed
by a line break. -/
def skipLines? : Nat → List Char → Option (List Char)
  | 0, cs => some cs
  | fuel + 1, cs =>
    match skipSpace cs with
    | '#' :: rest =>
      match lineBreak? (rest.dropWhile isPrintable) with
      | some rest => skipLines? fuel rest
      | none => none
    | rest =>
      match lineBreak? rest with
      | some rest => skipLines? fuel rest
      | none => some rest

/-! ### Strings -/

/-- The character of a number of hexadecimal digits. -/
def codePoint? (width : Nat) (cs : List Char) : Option (Char × List Char) :=
  let digits := cs.take width
  if digits.length < width then none
  else
    (digits.mapM hexValue?).bind fun ds =>
      let n := value 16 ds
      if h : n.isValidChar then some (Char.ofNatAux n h, cs.drop width) else none

/-- Reads an escape after its backslash. -/
def escape? : List Char → Option (Char × List Char)
  | 'b' :: rest => some ('\x08', rest)
  | 't' :: rest => some ('\t', rest)
  | 'n' :: rest => some ('\n', rest)
  | 'f' :: rest => some ('\x0c', rest)
  | 'r' :: rest => some ('\r', rest)
  | '"' :: rest => some ('"', rest)
  | '\\' :: rest => some ('\\', rest)
  | 'u' :: rest => codePoint? 4 rest
  | 'U' :: rest => codePoint? 8 rest
  | _ => none

/-- Reads the inside of a string on one line up to the closing quote. In one with double quotes a
backslash starts an escape. -/
def lineString? (quote : Char) : Nat → List Char → List Char → Option (String × List Char)
  | 0, _, _ => none
  | fuel + 1, done, cs =>
    match cs with
    | [] => none
    | c :: rest =>
      if c = quote then some (String.ofList done.reverse, rest)
      else if c = '\\' && quote = '"' then
        match escape? rest with
        | some (c, rest) => lineString? quote fuel (c :: done) rest
        | none => none
      else if isPrintable c then lineString? quote fuel (c :: done) rest
      else none

/-- The rest behind a backslash at the end of a line: without the blanks and line breaks up to the
next other character. -/
def joined? (cs : List Char) : Option (List Char) :=
  (lineBreak? (skipSpace cs)).map fun rest =>
    rest.dropWhile fun c => isSpace c || c = '\n' || c = '\r'

/-- Reads the inside of a string on several lines up to the three closing quotes. Up to two more
quotes right before them belong to the string, and a line break is a line feed. -/
def blockString? (quote : Char) : Nat → List Char → List Char → Option (String × List Char)
  | 0, _, _ => none
  | fuel + 1, done, cs =>
    match cs with
    | [] => none
    | c :: rest =>
      if c = quote then
        let count := (cs.takeWhile (· = quote)).length
        if count < 3 then blockString? quote fuel (quote :: done) rest
        else if count ≤ 5 then
          some (String.ofList (List.replicate (count - 3) quote ++ done).reverse, cs.drop count)
        else none
      else if c = '\\' && quote = '"' then
        match joined? rest with
        | some rest => blockString? quote fuel done rest
        | none =>
          match escape? rest with
          | some (c, rest) => blockString? quote fuel (c :: done) rest
          | none => none
      else
        match lineBreak? cs with
        | some rest => blockString? quote fuel ('\n' :: done) rest
        | none => if isPrintable c then blockString? quote fuel (c :: done) rest else none

/-- Reads a string of any of the four kinds. A line break right after three quotes does not
count. -/
def string? : List Char → Option (String × List Char)
  | '"' :: '"' :: '"' :: rest =>
    blockString? '"' (rest.length + 1) [] ((lineBreak? rest).getD rest)
  | '\'' :: '\'' :: '\'' :: rest =>
    blockString? '\'' (rest.length + 1) [] ((lineBreak? rest).getD rest)
  | '"' :: rest => lineString? '"' (rest.length + 1) [] rest
  | '\'' :: rest => lineString? '\'' (rest.length + 1) [] rest
  | _ => none

/-! ### Keys -/

/-- A character of a key without quotes. -/
def isBare (c : Char) : Bool :=
  ('a' ≤ c && c ≤ 'z') || ('A' ≤ c && c ≤ 'Z') || ('0' ≤ c && c ≤ '9') || c = '-' || c = '_'

/-- Reads one part of a key. -/
def keyPart? : List Char → Option (String × List Char)
  | '"' :: rest => lineString? '"' (rest.length + 1) [] rest
  | '\'' :: rest => lineString? '\'' (rest.length + 1) [] rest
  | cs =>
    let bare := cs.takeWhile isBare
    if bare.isEmpty then none else some (String.ofList bare, cs.dropWhile isBare)

/-- Reads a key: parts with dots between them, and spaces around each. -/
def key? : Nat → List Char → Option (List String × List Char)
  | 0, _ => none
  | fuel + 1, cs =>
    match keyPart? (skipSpace cs) with
    | none => none
    | some (part, rest) =>
      match skipSpace rest with
      | '.' :: rest => (key? fuel rest).map fun k => (part :: k.1, k.2)
      | rest => some ([part], rest)

/-! ### Numbers and times -/

/-- Takes digits off the front of a text. A line may stand between two digits. -/
def digits? (isDigit : Char → Bool) : List Char → Option (List Char × List Char)
  | [] => none
  | [c] => if isDigit c then some ([c], []) else none
  | c :: d :: rest =>
    if isDigit c then
      if d = '_' then (digits? isDigit rest).map fun r => (c :: r.1, r.2)
      else
        match digits? isDigit (d :: rest) with
        | some (ds, rest) => some (c :: ds, rest)
        | none => some ([c], d :: rest)
    else none

/-- Whether a character is a digit of a base. -/
def isDigitOf (base : Nat) (c : Char) : Bool := (hexValue? c).any (· < base)

/-- The integer of a sign and digits, if 64 bits hold it. -/
def integerOf? (base : Nat) (negative : Bool) (digits : List Char) : Option Int64 :=
  (digits.mapM hexValue?).bind fun ds =>
    let n : Int := if negative then -(value base ds : Int) else value base ds
    Word.signed? n

/-- Takes a sign off the front of a text. -/
def sign : List Char → Bool × List Char
  | '-' :: rest => (true, rest)
  | '+' :: rest => (false, rest)
  | cs => (false, cs)

/-- Takes decimal digits without a leading zero. -/
def decimal? (cs : List Char) : Option (List Char × List Char) :=
  match cs with
  | '0' :: rest => some (['0'], rest)
  | _ => digits? (isDigitOf 10) cs

/-- Reads an integer: decimal with a sign or without, or with a mark for another base. -/
def integer? (cs : List Char) : Option (Int64 × List Char) :=
  let based (base : Nat) (rest : List Char) : Option (Int64 × List Char) :=
    (digits? (isDigitOf base) rest).bind fun d => (integerOf? base false d.1).map (·, d.2)
  match cs with
  | '0' :: 'x' :: rest => based 16 rest
  | '0' :: 'o' :: rest => based 8 rest
  | '0' :: 'b' :: rest => based 2 rest
  | _ =>
    let (negative, rest) := sign cs
    (decimal? rest).bind fun d => (integerOf? 10 negative d.1).map (·, d.2)

/-- Takes an exponent. -/
def exponent? : List Char → Option (List Char × List Char)
  | e :: rest =>
    if e = 'e' || e = 'E' then
      let (negative, rest) := sign rest
      (digits? (isDigitOf 10) rest).map fun d =>
        ('e' :: (if negative then '-' :: d.1 else d.1), d.2)
    else none
  | [] => none

/-- Reads a float: decimal digits with a fraction, an exponent or both, or a special value. -/
def float? (cs : List Char) : Option (String × List Char) :=
  let (negative, unsigned) := sign cs
  let text (chars : List Char) : String :=
    String.ofList (if negative then '-' :: chars else chars)
  match unsigned with
  | 'i' :: 'n' :: 'f' :: rest => some (text ['i', 'n', 'f'], rest)
  | 'n' :: 'a' :: 'n' :: rest => some (text ['n', 'a', 'n'], rest)
  | _ =>
    (decimal? unsigned).bind fun (whole, rest) =>
      match rest with
      | '.' :: rest =>
        (digits? (isDigitOf 10) rest).map fun (fraction, rest) =>
          let (power, rest) := (exponent? rest).getD ([], rest)
          (text (whole ++ '.' :: fraction ++ power), rest)
      | _ => (exponent? rest).map fun (power, rest) => (text (whole ++ power), rest)

/-- Takes a fixed number of decimal digits. -/
def fixedDigits? (width : Nat) (cs : List Char) : Option (Nat × List Char) :=
  let digits := cs.take width
  if digits.length < width then none
  else (readDecimal? digits).map (·, cs.drop width)

/-- Takes a date that the calendar has. -/
def date? (cs : List Char) : Option (List Char) := do
  let (year, cs) ← fixedDigits? 4 cs
  let '-' :: cs := cs | none
  let (month, cs) ← fixedDigits? 2 cs
  let '-' :: cs := cs | none
  let (day, cs) ← fixedDigits? 2 cs
  if (⟨year, month, day⟩ : Date).valid then some cs else none

/-- Takes a time of day. -/
def timeOfDay? (cs : List Char) : Option (List Char) := do
  let (hour, cs) ← fixedDigits? 2 cs
  let ':' :: cs := cs | none
  let (minute, cs) ← fixedDigits? 2 cs
  let ':' :: cs := cs | none
  let (second, cs) ← fixedDigits? 2 cs
  if hour ≤ 23 ∧ minute ≤ 59 ∧ second ≤ 60 then
    match cs with
    | '.' :: rest =>
      if (rest.takeWhile (isDigitOf 10)).isEmpty then none
      else some (rest.dropWhile (isDigitOf 10))
    | _ => some cs
  else none

/-- A text without the offset from UTC at its front, if there is one. -/
def skipOffset (cs : List Char) : List Char :=
  let offset : Option (List Char) := do
    match cs with
    | 'Z' :: rest | 'z' :: rest => some rest
    | sign :: rest =>
      if sign ≠ '+' ∧ sign ≠ '-' then none
      let (hour, rest) ← fixedDigits? 2 rest
      let ':' :: rest := rest | none
      let (minute, rest) ← fixedDigits? 2 rest
      if hour ≤ 23 ∧ minute ≤ 59 then some rest else none
    | [] => none
  offset.getD cs

/-- Reads a date, a time of day, or both with or without an offset. -/
def dateTime? (cs : List Char) : Option (String × List Char) :=
  let rest : Option (List Char) :=
    match date? cs with
    | some rest =>
      match rest with
      | mark :: after =>
        if mark = 'T' || mark = 't' || mark = ' ' then
          match timeOfDay? after with
          | some rest => some (skipOffset rest)
          | none => some rest
        else some rest
      | [] => some []
    | none => timeOfDay? cs
  rest.map fun rest => (String.ofList (cs.take (cs.length - rest.length)), rest)

/-- Reads a number or a time. -/
def number? (cs : List Char) : Option (Toml × List Char) :=
  match dateTime? cs with
  | some (text, rest) => some (.dateTime text, rest)
  | none =>
    match float? cs with
    | some (text, rest) => some (.float text, rest)
    | none => (integer? cs).map fun n => (.integer n.1, n.2)

/-! ### Values -/

mutual

/-- Reads a value. -/
def value? : Nat → List Char → Option (Toml × List Char)
  | 0, _ => none
  | fuel + 1, cs =>
    match cs with
    | 't' :: 'r' :: 'u' :: 'e' :: rest => some (.boolean true, rest)
    | 'f' :: 'a' :: 'l' :: 's' :: 'e' :: rest => some (.boolean false, rest)
    | '[' :: rest => (items? fuel rest).map fun a => (.array a.1, a.2)
    | '\x7b' :: rest =>
      match skipSpace rest with
      | '\x7d' :: rest => some (.table .inline [], rest)
      | rest => (members? fuel [] rest).map fun t => (.table .inline t.1, t.2)
    | '"' :: _ | '\'' :: _ => (string? cs).map fun s => (.string s.1, s.2)
    | _ => number? cs

/-- Reads the items of an array up to the closing bracket. A comma may follow the last one. -/
def items? : Nat → List Char → Option (List Toml × List Char)
  | 0, _ => none
  | fuel + 1, cs =>
    match skipLines? cs.length cs with
    | some (']' :: rest) => some ([], rest)
    | some cs =>
      match value? fuel cs with
      | none => none
      | some (item, rest) =>
        match skipLines? rest.length rest with
        | some (']' :: rest) => some ([item], rest)
        | some (',' :: rest) => (items? fuel rest).map fun a => (item :: a.1, a.2)
        | _ => none
    | none => none

/-- Reads the entries of a table on one line up to the closing brace. -/
def members? : Nat → Entries → List Char → Option (Entries × List Char)
  | 0, _, _ => none
  | fuel + 1, entries, cs =>
    match key? (cs.length + 1) cs with
    | some (key, '=' :: rest) =>
      match value? fuel (skipSpace rest) with
      | none => none
      | some (value, rest) =>
        match addDotted key.dropLast (key.getLastD "") value .inline entries with
        | none => none
        | some (_, entries) =>
          match skipSpace rest with
          | '\x7d' :: rest => some (entries, rest)
          | ',' :: rest => members? fuel entries rest
          | _ => none
    | _ => none

end

/-! ### Documents -/

/-- Reads the inside of a header up to its closing brackets and the end of the line. -/
def header? (brackets : List Char) (cs : List Char) : Option (List String × List Char) := do
  let (key, rest) ← key? (cs.length + 1) cs
  if rest.take brackets.length = brackets then
    some (key, ← endLine? (rest.drop brackets.length))
  else none

/-- Reads the lines of a document into its root table. Entries go into the table under the header
that came last. -/
def lines? : Nat → List String → Entries → List Char → Option Entries
  | 0, _, _, _ => none
  | fuel + 1, header, root, cs =>
    match skipSpace cs with
    | [] => some root
    | '#' :: rest =>
      match endLine? ('#' :: rest) with
      | some rest => lines? fuel header root rest
      | none => none
    | '[' :: '[' :: rest =>
      match header? [']', ']'] rest with
      | some (key, rest) =>
        match openNext? key.dropLast (key.getLastD "") root with
        | some root => lines? fuel key root rest
        | none => none
      | none => none
    | '[' :: rest =>
      match header? [']'] rest with
      | some (key, rest) =>
        match open? key.dropLast (key.getLastD "") root with
        | some root => lines? fuel key root rest
        | none => none
      | none => none
    | cs =>
      match lineBreak? cs with
      | some rest => lines? fuel header root rest
      | none =>
        match key? (cs.length + 1) cs with
        | some (key, '=' :: rest) =>
          match value? (2 * rest.length + 2) (skipSpace rest) with
          | none => none
          | some (value, rest) =>
            match addUnder header key.dropLast (key.getLastD "") value root, endLine? rest with
            | some root, some rest => lines? fuel header root rest
            | _, _ => none
        | _ => none

/-- Reads a document, which may start with a byte order mark. -/
def read? (text : String) : Option Entries :=
  let cs := text.toList
  lines? (cs.length + 1) [] [] (if cs.head? = some '\ufeff' then cs.drop 1 else cs)

end ConceptLedger.Toml
