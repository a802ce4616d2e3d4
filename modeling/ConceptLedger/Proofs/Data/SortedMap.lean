import ConceptLedger.Data.SortedSet
import ConceptLedger.Data.StableSort
import Mathlib.Data.List.Induction
import Mathlib.Data.List.Perm.Basic

/-!
Maps kept in another form. A map whose keys and values are written in another way, so that keys
compare as before, has the written entries in the same order; looking up, inserting and removing go
along with the writing. A map can be read back from the list of its entries.
-/

namespace ConceptLedger

section Embeddings

variable {α β : Type} [Ord α] [Ord β]

/-- Images compare as what they are images of. -/
def Embeds (f : α → β) : Prop := ∀ a b, compare (f a) (f b) = compare a b

/-- It is enough that smaller images come from smaller things. -/
theorem Embeds.of_lt [Std.TransOrd α] [Std.LawfulEqOrd α] [Std.TransOrd β] [Std.LawfulEqOrd β]
    {f : α → β} (mono : ∀ a b, compare a b = .lt → compare (f a) (f b) = .lt) : Embeds f := by
  intro a b
  cases order : compare a b with
  | lt => exact mono a b order
  | eq =>
    rw [Std.LawfulEqCmp.eq_of_compare order]
    exact Std.ReflCmp.compare_self
  | gt => exact Std.OrientedCmp.gt_iff_lt.mpr (mono b a (Std.OrientedCmp.gt_iff_lt.mp order))

theorem Embeds.eq_iff [Std.LawfulEqOrd α] [Std.LawfulEqOrd β] {f : α → β} (embeds : Embeds f)
    {a b : α} : f a = f b ↔ a = b := by
  rw [← Std.compare_eq_iff_eq, embeds a b, Std.compare_eq_iff_eq]

end Embeddings

section Sorting

variable {α κ : Type} [Ord κ] [Std.TransOrd κ] [Std.LawfulEqOrd κ] {key : α → κ}

theorem insertByKey_increasing {a : α} {l : List α} (apart : ∀ b ∈ l, key a ≠ key b)
    (increasing : l.Pairwise fun b c => compare (key b) (key c) = .lt) :
    (insertByKey key a l).Pairwise fun b c => compare (key b) (key c) = .lt := by
  induction l with
  | nil => simp [insertByKey]
  | cons b rest ih =>
    obtain ⟨above, tail⟩ := List.pairwise_cons.mp increasing
    unfold insertByKey
    split
    · rename_i before
      refine List.pairwise_cons.mpr ⟨fun c member => ?_,
        ih (fun c later => apart c (List.mem_cons_of_mem _ later)) tail⟩
      rcases List.mem_cons.mp ((insertByKey_perm key a rest).mem_iff.mp member) with rfl | inRest
      · exact before
      · exact above c inRest
    · rename_i notBefore
      have first : compare (key a) (key b) = .lt := by
        cases order : compare (key a) (key b) with
        | lt => rfl
        | eq => exact absurd (Std.LawfulEqCmp.eq_of_compare order) (apart b List.mem_cons_self)
        | gt => exact absurd (Std.OrientedCmp.gt_iff_lt.mp order) notBefore
      refine List.pairwise_cons.mpr ⟨fun c member => ?_, increasing⟩
      rcases List.mem_cons.mp member with rfl | inRest
      · exact first
      · exact Std.TransCmp.lt_trans first (above c inRest)

/-- Entries with different keys are sorted strictly. -/
theorem sortByKey_increasing {l : List α} (apart : l.Pairwise fun a b => key a ≠ key b) :
    (sortByKey key l).Pairwise fun b c => compare (key b) (key c) = .lt := by
  induction l with
  | nil => exact .nil
  | cons a rest ih =>
    obtain ⟨first, tail⟩ := List.pairwise_cons.mp apart
    exact insertByKey_increasing
      (fun b member => first b ((sortByKey_perm key rest).mem_iff.mp member)) (ih tail)

omit [Std.LawfulEqOrd κ]

/-- An entry stays in front of entries with keys that are not below its own. -/
theorem insertByKey_first {a : α} {l : List α} (above : ∀ b ∈ l, (compare (key a) (key b)).isLE) :
    insertByKey key a l = a :: l := by
  cases l with
  | nil => rfl
  | cons b rest =>
    rw [insertByKey, if_neg (Std.OrientedCmp.not_lt_of_isLE (above b List.mem_cons_self))]

/-- What is in the order of its keys is left as it is. -/
theorem sortByKey_eq_self {l : List α}
    (ascending : l.Pairwise fun b c => (compare (key b) (key c)).isLE) : sortByKey key l = l := by
  induction l with
  | nil => rfl
  | cons a rest ih =>
    obtain ⟨above, tail⟩ := List.pairwise_cons.mp ascending
    rw [sortByKey, ih tail, insertByKey_first above]

theorem insertByKey_ascending {a : α} {l : List α}
    (ascending : l.Pairwise fun b c => (compare (key b) (key c)).isLE) :
    (insertByKey key a l).Pairwise fun b c => (compare (key b) (key c)).isLE := by
  induction l with
  | nil => exact List.pairwise_singleton _ _
  | cons b rest ih =>
    obtain ⟨above, tail⟩ := List.pairwise_cons.mp ascending
    unfold insertByKey
    split
    · rename_i before
      refine List.pairwise_cons.mpr ⟨fun c member => ?_, ih tail⟩
      rcases List.mem_cons.mp ((insertByKey_perm key a rest).mem_iff.mp member) with rfl | inRest
      · exact Ordering.isLE_of_eq_lt before
      · exact above c inRest
    · rename_i notBefore
      have first : (compare (key a) (key b)).isLE :=
        Std.OrientedCmp.isGE_iff_isLE.mp (Ordering.isGE_iff_ne_lt.mpr notBefore)
      refine List.pairwise_cons.mpr ⟨fun c member => ?_, ascending⟩
      rcases List.mem_cons.mp member with rfl | inRest
      · exact first
      · exact Std.TransCmp.isLE_trans first (above c inRest)

/-- Sorted entries have ascending keys. -/
theorem sortByKey_ascending (l : List α) :
    (sortByKey key l).Pairwise fun b c => (compare (key b) (key c)).isLE := by
  induction l with
  | nil => exact .nil
  | cons a rest ih => exact insertByKey_ascending ih

/-- An entry at the end of a sorted list is sorted into it, and the others stay in their order. -/
theorem sortByKey_concat {a : α} {l : List α}
    (ascending : l.Pairwise fun b c => (compare (key b) (key c)).isLE) :
    ∃ front back, l = front ++ back ∧ sortByKey key (l ++ [a]) = front ++ a :: back := by
  induction l with
  | nil => exact ⟨[], [], rfl, rfl⟩
  | cons b rest ih =>
    obtain ⟨above, tail⟩ := List.pairwise_cons.mp ascending
    obtain ⟨front, back, split, sorted⟩ := ih tail
    rw [List.cons_append, sortByKey, sorted]
    cases front with
    | nil =>
      obtain rfl : rest = back := split
      rw [List.nil_append, insertByKey, insertByKey_first above]
      split
      · exact ⟨[], b :: rest, rfl, rfl⟩
      · exact ⟨[b], rest, rfl, rfl⟩
    | cons c front =>
      have held : c ∈ rest := split ▸ List.mem_cons_self
      rw [List.cons_append, insertByKey, if_neg (Std.OrientedCmp.not_lt_of_isLE (above c held))]
      exact ⟨b :: c :: front, back, congrArg (b :: ·) split, rfl⟩

end Sorting

namespace SortedMap

variable {α β γ δ : Type} [Ord α] [Ord β]

omit [Ord β] in
theorem eq_empty {m : SortedMap α γ} (none : m.isEmpty = true) : m = empty := by
  obtain ⟨entries, _⟩ := m
  cases entries with
  | nil => rfl
  | cons _ _ => cases none

/-- A map that has the entries of another one in a written form, in the same order. -/
def Written (f : α → β) (g : γ → δ) (m : SortedMap α γ) (n : SortedMap β δ) : Prop :=
  n.entries = m.entries.map fun e => (f e.1, g e.2)

namespace Written

variable {f : α → β} {g : γ → δ} {m : SortedMap α γ} {n : SortedMap β δ}

theorem empty : Written f g (SortedMap.empty) (SortedMap.empty) := rfl

theorem size (written : Written f g m n) : n.size = m.size := by
  rw [SortedMap.size, SortedMap.size, written, List.length_map]

theorem find? (written : Written f g m n) (embeds : Embeds f) (k : α) :
    n.find? (f k) = (m.find? k).map g := by
  unfold SortedMap.find?
  rw [written]
  induction m.entries with
  | nil => rfl
  | cons e rest ih =>
    simp only [List.map_cons, findEntry, embeds k e.1]
    split
    · rfl
    · exact ih

theorem contains (written : Written f g m n) (embeds : Embeds f) (k : α) :
    n.contains (f k) = (m.find? k).isSome := by
  rw [SortedMap.contains, written.find? embeds, Option.isSome_map]

theorem insert [Std.TransOrd α] [Std.LawfulEqOrd α] [Std.TransOrd β] [Std.LawfulEqOrd β]
    (written : Written f g m n) (embeds : Embeds f) (k : α) (v : γ) :
    Written f g (m.insert k v) (n.insert (f k) (g v)) := by
  show insertEntry (f k) (g v) n.entries = (insertEntry k v m.entries).map _
  rw [written]
  induction m.entries with
  | nil => rfl
  | cons e rest ih =>
    obtain ⟨k', v'⟩ := e
    simp only [List.map_cons, insertEntry, embeds k k']
    split
    · rfl
    · rfl
    · rw [ih]
      rfl

theorem erase (written : Written f g m n) (embeds : Embeds f) (k : α) :
    Written f g (m.erase k) (n.erase (f k)) := by
  show n.entries.filter _ = (m.entries.filter _).map _
  rw [written, List.filter_map]
  congr 1
  refine List.filter_congr fun e _ => ?_
  simp only [Function.comp_apply, embeds k e.1]

end Written

variable [Std.TransOrd α] [Std.LawfulEqOrd α] [DecidableEq α]

/-- A map is read back from its entries. -/
theorem ofList_toList (m : SortedMap α γ) : ofList m.toList = m := by
  refine ext_find? fun k => ?_
  rw [find?_ofList fun e member => find?_eq_some_iff.mpr member]
  split
  · rfl
  · rename_i absent
    cases found : m.find? k with
    | none => rfl
    | some v => exact absurd (List.mem_map_of_mem (find?_eq_some_iff.mp found)) absent

theorem mem_of_find?_ofList {l : List (α × γ)} {k : α} {v : γ} (found : (ofList l).find? k = some v) :
    (k, v) ∈ l := by
  induction l using List.reverseRecOn with
  | nil => cases found
  | append_singleton l e ih =>
    rw [ofList, List.foldl_append] at found
    have found : ((ofList l).insert e.1 e.2).find? k = some v := found
    rw [find?_insert] at found
    split at found
    · rename_i same
      cases found
      rw [same]
      exact List.mem_append_right _ List.mem_cons_self
    · exact List.mem_append_left _ (ih found)

omit [DecidableEq α] in
/-- Maps that have a value for the same keys have as many entries. -/
theorem size_of_isSome {m : SortedMap α γ} {n : SortedMap α δ}
    (same : ∀ k, (n.find? k).isSome = (m.find? k).isSome) : n.size = m.size := by
  have marked : ∀ {ε : Type} (l : SortedMap α ε), (l.entries.map fun e => (e.1, ())).Pairwise
      fun a b => compare a.1 b.1 = .lt := fun l => List.pairwise_map.mpr l.increasing
  have member : ∀ {ε : Type} (l : SortedMap α ε) (k : α),
      (k, ()) ∈ l.entries.map (fun e => (e.1, ())) ↔ (l.find? k).isSome = true := by
    intro ε l k
    constructor
    · intro listed
      obtain ⟨e, entry, key⟩ := List.mem_map.mp listed
      obtain rfl := congrArg Prod.fst key
      rw [find?_eq_some_iff.mpr entry]
      rfl
    · intro found
      obtain ⟨v, value⟩ := Option.isSome_iff_exists.mp found
      exact List.mem_map.mpr ⟨(k, v), find?_eq_some_iff.mp value, rfl⟩
  have keys := entries_ext (marked n) (marked m) fun e => by
    rw [member n e.1, member m e.1, same]
  have lengths := congrArg List.length keys
  rwa [List.length_map, List.length_map] at lengths

/-- A set is read back from its members. -/
theorem ofMembers_elements (s : SortedSet α) : SortedSet.ofMembers s.elements = s := by
  refine ext_find? fun a => ?_
  rw [SortedSet.find?_ofMembers]
  split
  · rename_i member
    obtain ⟨⟨a, u⟩, entry, rfl⟩ := List.mem_map.mp member
    exact (find?_eq_some_iff.mpr entry).symm
  · rename_i absent
    cases found : s.find? a with
    | none => rfl
    | some u => exact absurd (List.mem_map_of_mem (find?_eq_some_iff.mp found)) absent

omit [Std.TransOrd α] [DecidableEq α] in
theorem insertEntry_perm {k : α} {v : γ} {l : List (α × γ)} (absent : k ∉ l.map (·.1)) :
    (insertEntry k v l).Perm ((k, v) :: l) := by
  induction l with
  | nil => exact .refl _
  | cons e rest ih =>
    obtain ⟨k', v'⟩ := e
    obtain ⟨apart, absent⟩ := not_or.mp (fun either => absent (List.mem_cons.mpr either))
    unfold insertEntry
    split
    · exact .refl _
    · rename_i same
      exact absurd (Std.LawfulEqCmp.eq_of_compare same) apart
    · exact ((ih absent).cons _).trans (.swap _ _ _)

omit [DecidableEq α] in
/-- A list without repeated keys and the map of its entries have the same entries. -/
theorem ofList_perm {l : List (α × γ)} (nodup : (l.map (·.1)).Nodup) :
    (ofList l).entries.Perm l := by
  induction l using List.reverseRecOn with
  | nil => exact .refl _
  | append_singleton front e ih =>
    rw [List.map_append] at nodup
    obtain ⟨before, -, apart⟩ := List.nodup_append.mp nodup
    have absent : e.1 ∉ (ofList front).entries.map (·.1) := by
      rw [((ih before).map _).mem_iff]
      exact fun member => apart _ member _ (List.mem_singleton_self _) rfl
    have last : ofList (front ++ [e]) = (ofList front).insert e.1 e.2 := by simp [ofList]
    rw [last]
    refine (insertEntry_perm absent).trans (((ih before).cons e).trans ?_)
    exact (List.perm_append_singleton e front).symm

end SortedMap

end ConceptLedger
