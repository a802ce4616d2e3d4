import ConceptLedger.Partition
import ConceptLedger.Proofs.Data.SortedMap
import ConceptLedger.Proofs.Text.Digits
import ConceptLedger.Schema

/-!
Names. The texts of identifiers and the names of partitions and types can be read back, and texts of
identifiers and names of partitions are ordered as what they stand for.
-/

namespace ConceptLedger

open Digits

/-- Texts compare as their characters do. -/
theorem compare_ofList_lt {a b : List Char} (before : List.Lex (· < ·) a b) :
    compare (String.ofList a) (String.ofList b) = .lt := by
  have less : String.ofList a < String.ofList b := by
    rw [String.lt_iff, String.toList_ofList, String.toList_ofList]
    exact before
  exact compareOfLessAndEq_eq_lt.mpr less

namespace Uuid

theorem length_digits (u : Uuid) : u.digits.length = 32 := length_hexFixed _ _

theorem lex_digits {a b : Uuid} (before : compare a b = .lt) :
    List.Lex (· < ·) a.digits b.digits := by
  have less : a.bits < b.bits := compareOfLessAndEq_eq_lt.mp before
  exact lex_hexFixed less b.bits.isLt

theorem readDigits?_digits (u : Uuid) : readDigits? u.digits = some u := by
  unfold readDigits?
  rw [if_pos u.length_digits]
  have read := read_hexFixed 32 u.bits.toNat
  have bound : u.bits.toNat < 16 ^ 32 := u.bits.isLt
  rw [Nat.mod_eq_of_lt bound] at read
  have read : (u.digits.mapM hexValue?).map (value 16) = some u.bits.toNat := read
  obtain ⟨ds, values, same⟩ := Option.map_eq_some_iff.mp read
  rw [values, Option.map_some, same]
  have bits : BitVec.ofNat 128 u.bits.toNat = u.bits := by
    rw [BitVec.ofNat_toNat, BitVec.setWidth_eq]
  exact congrArg some (congrArg Uuid.mk bits)

/-- A tail of a text, cut once more. -/
theorem take_append_drop_drop (l : List Char) (n k : Nat) :
    (l.drop n).take k ++ l.drop (n + k) = l.drop n := by
  rw [← List.drop_drop, List.take_append_drop]

/-- What the grouping of digits puts between them can be taken out again. -/
theorem ungroup {ds : List Char} (length : ds.length = 32) :
    (group ds).take 8 ++ ((group ds).drop 9).take 4 ++ ((group ds).drop 14).take 4 ++
      ((group ds).drop 19).take 4 ++ (group ds).drop 24 = ds := by
  have parts : (group ds).take 8 ++ ((group ds).drop 9).take 4 ++ ((group ds).drop 14).take 4 ++
      ((group ds).drop 19).take 4 ++ (group ds).drop 24 =
      ds.take 8 ++ ((ds.drop 8).take 4 ++ ((ds.drop 12).take 4 ++
        ((ds.drop 16).take 4 ++ ds.drop 20))) := by
    simp [group, List.drop_append, length, List.drop_take]
  rw [parts, take_append_drop_drop ds 16 4, take_append_drop_drop ds 12 4,
    take_append_drop_drop ds 8 4, List.take_append_drop]

theorem length_group {ds : List Char} (length : ds.length = 32) : (group ds).length = 36 := by
  simp [group, length]

theorem readGrouped?_group {ds : List Char} (length : ds.length = 32) :
    readGrouped? (group ds) = readDigits? ds := by
  unfold readGrouped?
  dsimp only
  rw [ungroup length, if_pos rfl]

theorem read?_text (u : Uuid) : read? u.text = some u := by
  rw [read?, text, String.toList_ofList, readChars?, length_group u.length_digits]
  exact (readGrouped?_group u.length_digits).trans u.readDigits?_digits

/-- A mark that stands at one place in two texts of one length does not change their order. -/
theorem lex_mark {a b : List Char} (length : a.length = b.length)
    (before : List.Lex (· < ·) a b) (place : Nat) (mark : Char) :
    List.Lex (· < ·) (a.take place ++ mark :: a.drop place)
      (b.take place ++ mark :: b.drop place) := by
  induction before generalizing place with
  | nil => cases length
  | @cons c a' b' _ ih =>
    cases place with
    | zero => exact .cons (.cons (by assumption))
    | succ place => exact .cons (ih (Nat.succ.inj length) place)
  | rel first =>
    cases place with
    | zero => exact .cons (.rel first)
    | succ place => exact .rel first

theorem group_eq {ds : List Char} (length : ds.length = 32) :
    let mark (place : Nat) (l : List Char) := l.take place ++ '-' :: l.drop place
    group ds = mark 8 (mark 12 (mark 16 (mark 20 ds))) := by
  intro mark
  simp only [mark, group]
  simp [List.take_append, List.drop_append, length, List.drop_take, List.take_take]

theorem lex_group {a b : List Char} (left : a.length = 32) (right : b.length = 32)
    (before : List.Lex (· < ·) a b) : List.Lex (· < ·) (group a) (group b) := by
  rw [group_eq left, group_eq right]
  refine lex_mark (by simp [left, right]) (lex_mark (by simp [left, right]) (lex_mark
    (by simp [left, right]) (lex_mark (by simp [left, right]) before 20 '-') 16 '-') 12 '-') 8 '-'

theorem text_embeds : Embeds text := .of_lt fun a b before =>
  compare_ofList_lt (lex_group a.length_digits b.length_digits (lex_digits before))

end Uuid

namespace Partition

theorem name_embeds : Embeds name := by
  refine .of_lt fun a b before => compare_ofList_lt ?_
  cases a with
  | siteDirectory => cases b <;> cases before
  | model a =>
    cases b with
    | model b => exact List.Lex.append_left _ (Uuid.lex_digits before) modelNameStart
    | siteDirectory => exact .rel (by decide)

theorem modelName_ne (cs : List Char) : modelNameStart ++ cs ≠ siteDirectoryName := by
  intro same
  have first := congrArg List.head? same
  cases first

theorem read?_name (p : Partition) : read? p.name = some p := by
  rw [read?, name, String.toList_ofList]
  cases p with
  | siteDirectory => rfl
  | model id =>
    have apart : (model id).nameChars ≠ siteDirectoryName := modelName_ne _
    have start : (model id).nameChars.take modelNameStart.length = modelNameStart :=
      List.take_left
    have digits : (model id).nameChars.drop modelNameStart.length = id.digits := List.drop_left
    rw [readChars?, if_neg apart, if_pos start, digits, Uuid.readChars?, id.length_digits]
    show (Uuid.readDigits? id.digits).map model = _
    rw [Uuid.readDigits?_digits]
    rfl

end Partition

theorem ConceptType.ofName?_name (t : ConceptType) : ConceptType.ofName? t.name = some t := by
  cases t <;> decide

end ConceptLedger
