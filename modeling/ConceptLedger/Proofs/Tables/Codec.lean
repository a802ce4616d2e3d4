import ConceptLedger.Proofs.Tables.Rows

/-!
A codec that loses nothing. It keeps a JSON value on one line where that can be read back; any other
value it spells out after a mark that no line begins with, so that it can be read back all the same.
-/

namespace ConceptLedger

namespace Spelling

/-- A number as that many marks with an end. -/
def ofNat (n : Nat) : List Char := List.replicate n '1' ++ ['0']

/-- Reads a number off the front. -/
def nat? : List Char → Option (Nat × List Char)
  | '1' :: cs => (nat? cs).map fun (n, rest) => (n + 1, rest)
  | '0' :: cs => some (0, cs)
  | _ => none

/-- Several entries after their number. -/
def ofList {α : Type} (f : α → List Char) (l : List α) : List Char :=
  ofNat l.length ++ l.flatMap f

/-- Reads so many entries off the front. -/
def entries? {α : Type} (read : List Char → Option (α × List Char)) :
    Nat → List Char → Option (List α × List Char)
  | 0, cs => some ([], cs)
  | n + 1, cs => do
    let (a, cs) ← read cs
    let (l, cs) ← entries? read n cs
    some (a :: l, cs)

/-- Reads entries after their number off the front. -/
def list? {α : Type} (read : List Char → Option (α × List Char)) (cs : List Char) :
    Option (List α × List Char) := do
  let (n, cs) ← nat? cs
  entries? read n cs

def ofString (s : String) : List Char := ofList (fun c => [c]) s.toList

def char? : List Char → Option (Char × List Char)
  | c :: cs => some (c, cs)
  | [] => none

def string? (cs : List Char) : Option (String × List Char) :=
  (list? char? cs).map fun (l, rest) => (String.ofList l, rest)

theorem nat?_ofNat (n : Nat) (rest : List Char) : nat? (ofNat n ++ rest) = some (n, rest) := by
  induction n with
  | zero => rfl
  | succ n ih =>
    have spelled : ofNat (n + 1) ++ rest = '1' :: (ofNat n ++ rest) := by
      simp [ofNat, List.replicate_succ]
    rw [spelled, nat?, ih]
    rfl

theorem entries?_flatMap {α : Type} {f : α → List Char}
    {read : List Char → Option (α × List Char)} {l : List α}
    (each : ∀ a ∈ l, ∀ rest, read (f a ++ rest) = some (a, rest)) (rest : List Char) :
    entries? read l.length (l.flatMap f ++ rest) = some (l, rest) := by
  induction l with
  | nil => rfl
  | cons a l ih =>
    have later := ih fun b member => each b (List.mem_cons_of_mem _ member)
    rw [List.flatMap_cons, List.append_assoc, List.length_cons, entries?,
      each a List.mem_cons_self]
    simp [later]

theorem list?_ofList {α : Type} {f : α → List Char} {read : List Char → Option (α × List Char)}
    {l : List α} (each : ∀ a ∈ l, ∀ rest, read (f a ++ rest) = some (a, rest))
    (rest : List Char) : list? read (ofList f l ++ rest) = some (l, rest) := by
  rw [ofList, List.append_assoc, list?, nat?_ofNat]
  exact entries?_flatMap each rest

theorem string?_ofString (s : String) (rest : List Char) :
    string? (ofString s ++ rest) = some (s, rest) := by
  have chars : list? char? (ofString s ++ rest) = some (s.toList, rest) :=
    list?_ofList (fun _ _ _ => rfl) rest
  rw [string?, chars]
  simp

mutual

/-- A JSON value letter by letter: a letter for its form, then what it holds. -/
def ofJson : Json → List Char
  | .null => ['n']
  | .bool true => ['t']
  | .bool false => ['f']
  | .int (.ofNat n) => 'i' :: ofNat n
  | .int (.negSucc n) => 'j' :: ofNat n
  | .float x => (if x.negative then 'm' else 'p') :: ofNat x.rank
  | .str s => 's' :: ofString s
  | .arr items => 'a' :: ofNat items.length ++ ofItems items
  | .obj members => 'o' :: ofNat members.length ++ ofMembers members

def ofItems : List Json → List Char
  | [] => []
  | item :: rest => ofJson item ++ ofItems rest

def ofMembers : List (String × Json) → List Char
  | [] => []
  | (name, value) :: rest => (ofString name ++ ofJson value) ++ ofMembers rest

end

theorem ofItems_eq (items : List Json) : ofItems items = items.flatMap ofJson := by
  induction items with
  | nil => rfl
  | cons item rest ih => rw [ofItems, ih, List.flatMap_cons]

theorem ofMembers_eq (members : List (String × Json)) :
    ofMembers members = members.flatMap fun m => ofString m.1 ++ ofJson m.2 := by
  induction members with
  | nil => rfl
  | cons m rest ih => rw [ofMembers, ih, List.flatMap_cons]

/-- The float of a sign and a rank, if there is such a rank. -/
def float? (negative : Bool) (rank : Nat) : Option Json :=
  if bounded : rank < 2048 * Binary64.binade then some (.float ⟨negative, rank, bounded⟩) else none

/-- Reads a member of an object off the front. -/
def member? (read : List Char → Option (Json × List Char)) (cs : List Char) :
    Option ((String × Json) × List Char) := do
  let (name, cs) ← string? cs
  let (value, cs) ← read cs
  some ((name, value), cs)

/-- Reads a JSON value off the front, with values inside each other up to a depth. -/
def json? : Nat → List Char → Option (Json × List Char)
  | 0, _ => none
  | depth + 1, c :: cs =>
    match c with
    | 'n' => some (.null, cs)
    | 't' => some (.bool true, cs)
    | 'f' => some (.bool false, cs)
    | 'i' => (nat? cs).map fun (n, cs) => (.int (.ofNat n), cs)
    | 'j' => (nat? cs).map fun (n, cs) => (.int (.negSucc n), cs)
    | 'm' => (nat? cs).bind fun (n, cs) => (float? true n).map (·, cs)
    | 'p' => (nat? cs).bind fun (n, cs) => (float? false n).map (·, cs)
    | 's' => (string? cs).map fun (s, cs) => (.str s, cs)
    | 'a' => (list? (json? depth) cs).map fun (items, cs) => (.arr items, cs)
    | 'o' => (list? (member? (json? depth)) cs).map fun (members, cs) => (.obj members, cs)
    | _ => none
  | _ + 1, [] => none

theorem length_le_flatMap {α : Type} {f : α → List Char} {l : List α} {a : α} (member : a ∈ l) :
    (f a).length ≤ (l.flatMap f).length :=
  (List.sublist_flatten_of_mem (List.mem_map_of_mem member)).length_le

theorem length_ofJson_pos (j : Json) : 0 < (ofJson j).length := by
  unfold ofJson
  split <;> simp

/-- What is spelled out can be read back. The depth is never more than the length of the text, on
which the induction is. -/
theorem json?_ofJson (depth : Nat) (j : Json) (deep : (ofJson j).length ≤ depth)
    (rest : List Char) : json? depth (ofJson j ++ rest) = some (j, rest) := by
  induction depth generalizing j rest with
  | zero =>
    have positive := length_ofJson_pos j
    omega
  | succ depth ih =>
    cases j with
    | null => rfl
    | bool b => cases b <;> rfl
    | int n =>
      cases n with
      | ofNat n => simp [ofJson, json?, nat?_ofNat]
      | negSucc n => simp [ofJson, json?, nat?_ofNat]
    | float x =>
      obtain ⟨negative, rank, bounded⟩ := x
      cases negative with
      | true => simp [ofJson, json?, nat?_ofNat, float?, bounded]
      | false => simp [ofJson, json?, nat?_ofNat, float?, bounded]
    | str s => simp [ofJson, json?, string?_ofString]
    | arr items =>
      have spelled : ofJson (.arr items) = 'a' :: ofList ofJson items := by
        rw [ofJson, ofItems_eq]
        rfl
      rw [spelled, List.length_cons] at deep
      have each : ∀ item ∈ items, ∀ rest, json? depth (ofJson item ++ rest) = some (item, rest) := by
        intro item member rest
        refine ih item ?_ rest
        have inside := length_le_flatMap (f := ofJson) member
        simp only [ofList, List.length_append] at deep
        omega
      rw [spelled]
      show (list? (json? depth) (ofList ofJson items ++ rest)).map _ = _
      rw [list?_ofList each]
      rfl
    | obj members =>
      have spelled : ofJson (.obj members) =
          'o' :: ofList (fun m => ofString m.1 ++ ofJson m.2) members := by
        rw [ofJson, ofMembers_eq]
        rfl
      rw [spelled, List.length_cons] at deep
      have each : ∀ m ∈ members, ∀ rest,
          member? (json? depth) ((ofString m.1 ++ ofJson m.2) ++ rest) = some (m, rest) := by
        intro m member rest
        have inside := length_le_flatMap (f := fun m => ofString m.1 ++ ofJson m.2) member
        have value := ih m.2 (by
          simp only [ofList, List.length_append] at deep inside
          omega) rest
        rw [List.append_assoc, member?, string?_ofString]
        simp [value]
      rw [spelled]
      show (list? (member? (json? depth)) (ofList _ members ++ rest)).map _ = _
      rw [list?_ofList each]
      rfl

end Spelling

namespace Tables

open Spelling

/-- The codec that keeps JSON on one line where that can be read back, and else spells it out. -/
def TextCodec.lossless : TextCodec where
  write j :=
    if (Json.read? (Json.compact j)).map ofJson = some (ofJson j) ∧
        (Json.compact j).toList.head? ≠ some '\x00' then Json.compact j
    else String.ofList ('\x00' :: ofJson j)
  read? s :=
    match s.toList with
    | '\x00' :: cs => (json? cs.length cs).map Prod.fst
    | _ => Json.read? s

theorem ofJson_injective {a b : Json} (same : ofJson a = ofJson b) : a = b := by
  have left := json?_ofJson _ a (Nat.le_refl _) []
  have right := json?_ofJson _ b (Nat.le_refl _) []
  rw [same, right] at left
  cases left
  rfl

/-- Every JSON value can be read back. -/
theorem TextCodec.lossless_read (j : Json) : lossless.read? (lossless.write j) = some j := by
  by_cases plain : (Json.read? (Json.compact j)).map ofJson = some (ofJson j) ∧
      (Json.compact j).toList.head? ≠ some '\x00'
  · have line : lossless.write j = Json.compact j := if_pos plain
    obtain ⟨j', read, same⟩ := Option.map_eq_some_iff.mp plain.1
    rw [ofJson_injective same] at read
    rw [line]
    show (match (Json.compact j).toList with
      | '\x00' :: cs => (json? cs.length cs).map Prod.fst
      | _ => Json.read? (Json.compact j)) = _
    split
    · rename_i cs marked
      exact absurd (congrArg List.head? marked) plain.2
    · exact read
  · have spelled : lossless.write j = String.ofList ('\x00' :: ofJson j) := if_neg plain
    have back := json?_ofJson _ j (Nat.le_refl _) []
    rw [List.append_nil] at back
    rw [spelled]
    show (match (String.ofList ('\x00' :: ofJson j)).toList with
      | '\x00' :: cs => (json? cs.length cs).map Prod.fst
      | _ => Json.read? (String.ofList ('\x00' :: ofJson j))) = _
    rw [String.toList_ofList]
    simp [back]

theorem TextCodec.lossless_exact : lossless.Exact where
  properties _ := lossless_read _
  accessOverride _ := lossless_read _
  concept _ := lossless_read _

end Tables

end ConceptLedger
