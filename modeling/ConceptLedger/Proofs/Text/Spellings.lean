import ConceptLedger.Proofs.Wire.Names

/-!
Spellings. An identifier has four spellings, each in upper or lower case, and the partition of a model
has a name for each spelling of the model's identifier. What is read is what is spelled, and nothing
else is read; so the names by which partitions are kept apart do keep them apart.
-/

namespace ConceptLedger

open Digits

namespace Uuid

/-- A text of digits in either case that spells an identifier. -/
def Plain (u : Uuid) (cs : List Char) : Prop := cs.map Char.toLower = u.digits

variable {u : Uuid} {cs : List Char}

theorem Plain.length (plain : u.Plain cs) : cs.length = 32 := by
  have same := congrArg List.length plain
  rwa [List.length_map, length_digits] at same

/-- The digits of the identifier that some digits are read as. -/
theorem digits_ofNat {ds : List Nat} (bounds : ∀ d ∈ ds, d < 16) (length : ds.length = 32) :
    (ofNat (value 16 ds)).digits = ds.map hexDigit := by
  have small : value 16 ds < 2 ^ 128 := by
    have bound := value_lt bounds
    rwa [length] at bound
  have same := fixed_value bounds
  rw [length] at same
  rw [digits, ofNat, BitVec.toNat_ofNat, Nat.mod_eq_of_lt small, hexFixed, same]

theorem readDigits?_eq_some_iff : readDigits? cs = some u ↔ u.Plain cs := by
  constructor
  · intro read
    unfold readDigits? at read
    split at read
    · rename_i length
      obtain ⟨ds, values, rfl⟩ := Option.map_eq_some_iff.mp read
      obtain ⟨bounds, same⟩ := toLower_of_mapM values
      have count := congrArg List.length same
      rw [List.length_map, List.length_map, length] at count
      exact same.trans (digits_ofNat bounds count.symm).symm
    · cases read
  · intro plain
    have read := u.readDigits?_digits
    unfold readDigits? at read ⊢
    rw [if_pos u.length_digits, ← plain, mapM_toLower] at read
    rw [if_pos plain.length, read]

/-- Digits in groups of 8, 4, 4, 4 and 12 with hyphens between them. -/
inductive Hyphenated (u : Uuid) : List Char → Prop
  | groups {a b c d e : List Char} : a.length = 8 → b.length = 4 → c.length = 4 → d.length = 4 →
      u.Plain (a ++ b ++ c ++ d ++ e) →
      Hyphenated u (a ++ '-' :: b ++ '-' :: c ++ '-' :: d ++ '-' :: e)

theorem Hyphenated.grouped (hyphenated : u.Hyphenated cs) :
    ∃ ds, u.Plain ds ∧ cs = group ds := by
  cases hyphenated with
  | @groups a b c d e la lb lc ld plain =>
    refine ⟨_, plain, ?_⟩
    simp (disch := omega) [group, List.drop_append, List.drop_eq_nil_of_le, la, lb, lc]

theorem hyphenated_group {ds : List Char} (plain : u.Plain ds) : u.Hyphenated (group ds) := by
  have length := plain.length
  refine .groups (by simp [length]) (by simp [length]) (by simp [length]) (by simp [length]) ?_
  have whole : ds.take 8 ++ (ds.drop 8).take 4 ++ (ds.drop 12).take 4 ++ (ds.drop 16).take 4 ++
      ds.drop 20 = ds := by
    simp only [List.append_assoc]
    rw [take_append_drop_drop ds 16 4, take_append_drop_drop ds 12 4, take_append_drop_drop ds 8 4,
      List.take_append_drop]
  rwa [whole]

theorem readGrouped?_eq_some_iff : readGrouped? cs = some u ↔ u.Hyphenated cs := by
  constructor
  · intro read
    unfold readGrouped? at read
    dsimp only at read
    split at read
    · rename_i grouped
      rw [← grouped]
      exact hyphenated_group (readDigits?_eq_some_iff.mp read)
    · cases read
  · intro hyphenated
    obtain ⟨ds, plain, rfl⟩ := hyphenated.grouped
    rw [readGrouped?_group plain.length]
    exact readDigits?_eq_some_iff.mpr plain

theorem Hyphenated.length (hyphenated : u.Hyphenated cs) : cs.length = 36 := by
  obtain ⟨ds, plain, rfl⟩ := hyphenated.grouped
  exact length_group plain.length

/-- The four spellings of an identifier: its digits, the same with hyphens, and the latter in braces
or after an announcement. -/
inductive Spelling (u : Uuid) : List Char → Prop
  | plain {cs : List Char} : u.Plain cs → Spelling u cs
  | hyphenated {cs : List Char} : u.Hyphenated cs → Spelling u cs
  | braced {cs : List Char} : u.Hyphenated cs → Spelling u ('\x7b' :: cs ++ ['\x7d'])
  | announced {urn cs : List Char} : urn.map Char.toLower = "urn:uuid:".toList →
      u.Hyphenated cs → Spelling u (urn ++ cs)

/-- An identifier is read from its spellings and from nothing else. -/
theorem readChars?_eq_some_iff : readChars? cs = some u ↔ u.Spelling cs := by
  constructor
  · intro read
    unfold readChars? at read
    split at read
    · exact .plain (readDigits?_eq_some_iff.mp read)
    · exact .hyphenated (readGrouped?_eq_some_iff.mp read)
    · rename_i length
      split at read
      · rename_i braces
        obtain ⟨front, rfl⟩ := List.getLast?_eq_some_iff.mp braces.2
        cases front with
        | nil => cases length
        | cons first inner =>
          obtain rfl : first = '\x7b' := Option.some.inj braces.1
          have within : ('\x7b' :: inner ++ ['\x7d']).tail.dropLast = inner := List.dropLast_concat
          rw [List.drop_one, within] at read
          exact .braced (readGrouped?_eq_some_iff.mp read)
      · cases read
    · split at read
      · rename_i announces
        rw [← List.take_append_drop 9 cs]
        exact .announced announces (readGrouped?_eq_some_iff.mp read)
      · cases read
    · cases read
  · intro spelling
    cases spelling with
    | plain plain =>
      rw [readChars?, plain.length]
      exact readDigits?_eq_some_iff.mpr plain
    | hyphenated hyphenated =>
      rw [readChars?, hyphenated.length]
      exact readGrouped?_eq_some_iff.mpr hyphenated
    | @braced cs hyphenated =>
      have length : ('\x7b' :: cs ++ ['\x7d']).length = 38 := by simp [hyphenated.length]
      have within : (('\x7b' :: cs ++ ['\x7d']).drop 1).dropLast = cs := List.dropLast_concat
      rw [readChars?, length, within, if_pos ⟨rfl, List.getLast?_concat⟩]
      exact readGrouped?_eq_some_iff.mpr hyphenated
    | @announced urn cs announces hyphenated =>
      have nine : urn.length = 9 := by
        have same := congrArg List.length announces
        rwa [List.length_map] at same
      have length : (urn ++ cs).length = 45 := by simp [hyphenated.length, nine]
      have front : (urn ++ cs).take 9 = urn := nine ▸ List.take_left
      have back : (urn ++ cs).drop 9 = cs := nine ▸ List.drop_left
      rw [readChars?, length, front, back]
      exact (if_pos announces).trans (readGrouped?_eq_some_iff.mpr hyphenated)

end Uuid

namespace Partition

/-- A text that names the partition of a model by some spelling of its identifier. -/
def NamesModel (u : Uuid) (s : String) : Prop :=
  ∃ cs, u.Spelling cs ∧ s = "EngineeringModel_" ++ String.ofList cs

theorem namesModel_iff {u : Uuid} {s : String} :
    NamesModel u s ↔ ∃ cs, u.Spelling cs ∧ s.toList = modelNameStart ++ cs := by
  refine exists_congr fun cs => and_congr_right fun _ => ?_
  have same : ("EngineeringModel_" ++ String.ofList cs).toList = modelNameStart ++ cs :=
    String.toList_append.trans (congrArg (modelNameStart ++ ·) String.toList_ofList)
  rw [← String.toList_inj, same]

theorem read?_eq_siteDirectory_iff {s : String} :
    read? s = some siteDirectory ↔ s = "SiteDirectory" := by
  rw [← String.toList_inj, read?, readChars?]
  split
  · rename_i named
    exact ⟨fun _ => named, fun _ => rfl⟩
  · rename_i other
    refine ⟨fun read => ?_, fun named => absurd named other⟩
    split at read
    · obtain ⟨u, -, none⟩ := Option.map_eq_some_iff.mp read
      cases none
    · cases read

theorem read?_eq_model_iff {s : String} {u : Uuid} : read? s = some (model u) ↔ NamesModel u s := by
  rw [namesModel_iff, read?, readChars?]
  constructor
  · intro read
    split at read
    · cases read
    split at read
    · rename_i start
      obtain ⟨v, spelled, same⟩ := Option.map_eq_some_iff.mp read
      cases same
      refine ⟨_, Uuid.readChars?_eq_some_iff.mp spelled, ?_⟩
      have whole := List.take_append_drop modelNameStart.length s.toList
      rw [start] at whole
      exact whole.symm
    · cases read
  · rintro ⟨cs, spelling, whole⟩
    rw [whole, if_neg (modelName_ne cs), List.take_left, if_pos rfl, List.drop_left,
      Uuid.readChars?_eq_some_iff.mpr spelling]
    rfl

/-- Every text that is read names the site directory or a model. -/
theorem names_of_read {s : String} {p : Partition} (read : read? s = some p) :
    p = siteDirectory ∧ s = "SiteDirectory" ∨ ∃ u, p = model u ∧ NamesModel u s := by
  cases p with
  | siteDirectory => exact .inl ⟨rfl, read?_eq_siteDirectory_iff.mp read⟩
  | model u => exact .inr ⟨u, rfl, read?_eq_model_iff.mp read⟩

/-- A text that names a model names no other model, and not the site directory. -/
theorem NamesModel.unique {u v : Uuid} {s : String} (first : NamesModel u s)
    (second : NamesModel v s) : u = v := by
  have same := (read?_eq_model_iff.mpr first).symm.trans (read?_eq_model_iff.mpr second)
  cases same
  rfl

theorem not_namesModel_siteDirectory (u : Uuid) : ¬ NamesModel u "SiteDirectory" := by
  intro names
  have read := (read?_eq_model_iff.mpr names).symm.trans (read?_eq_siteDirectory_iff.mpr rfl)
  cases read

/-- What a partition tells of itself is what a text tells. -/
structure ToldBy (p : Partition) (s : String) : Prop where
  again : read? p.name = some p
  modelId : ∀ u, p.modelId? = some u ↔ NamesModel u s
  noModel : p.modelId? = none ↔ s = "SiteDirectory"
  reference : p.scope = .reference ↔ s = "SiteDirectory"

theorem toldBy_of_read {s : String} {p : Partition} (read : read? s = some p) : p.ToldBy s := by
  rcases names_of_read read with ⟨rfl, rfl⟩ | ⟨u, rfl, named⟩
  · exact {
      again := read?_name _
      modelId := fun u => ⟨nofun, fun names => absurd names (not_namesModel_siteDirectory u)⟩
      noModel := ⟨fun _ => rfl, fun _ => rfl⟩
      reference := ⟨fun _ => rfl, fun _ => rfl⟩ }
  · have other : s ≠ "SiteDirectory" := by
      rintro rfl
      exact not_namesModel_siteDirectory u named
    exact {
      again := read?_name _
      modelId := fun v => ⟨fun same => Option.some.inj same ▸ named,
        fun names => congrArg some (named.unique names)⟩
      noModel := ⟨nofun, fun same => absurd same other⟩
      reference := ⟨nofun, fun same => absurd same other⟩ }

theorem name_injective {p q : Partition} (same : p.name = q.name) : p = q := by
  have read := p.read?_name
  rw [same, q.read?_name] at read
  exact (Option.some.inj read).symm

theorem isSome_read?_iff (s : String) :
    (read? s).isSome = true ↔ s = "SiteDirectory" ∨ ∃ u, NamesModel u s := by
  constructor
  · intro readable
    obtain ⟨p, read⟩ := Option.isSome_iff_exists.mp readable
    rcases names_of_read read with ⟨-, named⟩ | ⟨u, -, named⟩
    · exact .inl named
    · exact .inr ⟨u, named⟩
  · rintro (named | ⟨u, named⟩)
    · rw [read?_eq_siteDirectory_iff.mpr named]
      rfl
    · rw [read?_eq_model_iff.mpr named]
      rfl

theorem eq_iff_of_read {s t : String} {p q : Partition} (first : read? s = some p)
    (second : read? t = some q) : p = q ↔
      s = "SiteDirectory" ∧ t = "SiteDirectory" ∨ ∃ u, NamesModel u s ∧ NamesModel u t := by
  constructor
  · rintro rfl
    rcases names_of_read first with ⟨rfl, named⟩ | ⟨u, rfl, named⟩
    · exact .inl ⟨named, read?_eq_siteDirectory_iff.mp second⟩
    · exact .inr ⟨u, named, read?_eq_model_iff.mp second⟩
  · rintro (⟨rfl, rfl⟩ | ⟨u, named, named'⟩)
    · exact Option.some.inj (first.symm.trans second)
    · rw [read?_eq_model_iff.mpr named] at first
      rw [read?_eq_model_iff.mpr named'] at second
      exact Option.some.inj (first.symm.trans second)

/-- Names are faithful keys of partitions. Those of the site directory and of models in any spelling
are read, and no other text is; a partition tells the same as the text that it is read from; and
different partitions have different names. -/
theorem names_faithful :
    (∀ s, (read? s).isSome = true ↔ s = "SiteDirectory" ∨ ∃ u, NamesModel u s) ∧
    (∀ s p, read? s = some p → p.ToldBy s) ∧
    (∀ s t p q, read? s = some p → read? t = some q → (p = q ↔
      s = "SiteDirectory" ∧ t = "SiteDirectory" ∨ ∃ u, NamesModel u s ∧ NamesModel u t)) ∧
    (∀ u v, (model u).name = (model v).name → u = v) ∧
    ∀ u, model u ≠ siteDirectory ∧ (model u).name ≠ "SiteDirectory" := by
  refine ⟨isSome_read?_iff, fun s p read => toldBy_of_read read,
    fun s t p q first second => eq_iff_of_read first second, fun u v same => ?_,
    fun u => ⟨fun same => ?_, fun same => ?_⟩⟩
  · cases name_injective same
    rfl
  · cases same
  · have names := read?_eq_model_iff.mp (model u).read?_name
    rw [same] at names
    exact not_namesModel_siteDirectory u names

/-- Capitals and the announcement of an identifier make no difference to what is named. -/
theorem names_faithful_announced :
    read? "EngineeringModel_0000000000000000000000000000000A" = some (model (.ofNat 10)) ∧
    read? "EngineeringModel_Urn:Uuid:00000000-0000-0000-0000-00000000000a" =
      some (model (.ofNat 10)) ∧
    ∃ u, NamesModel u "EngineeringModel_0000000000000000000000000000000A" ∧
      NamesModel u "EngineeringModel_Urn:Uuid:00000000-0000-0000-0000-00000000000a" := by
  have first : read? "EngineeringModel_0000000000000000000000000000000A" =
      some (model (.ofNat 10)) := by decide +kernel
  have second : read? "EngineeringModel_Urn:Uuid:00000000-0000-0000-0000-00000000000a" =
      some (model (.ofNat 10)) := by decide +kernel
  refine ⟨first, second, ?_⟩
  rcases (names_faithful.2.2.1 _ _ _ _ first second).mp rfl with ⟨named, -⟩ | shared
  · exact absurd named (by decide)
  · exact shared

end Partition

end ConceptLedger
