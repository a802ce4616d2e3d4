/-!
Finite maps as association lists with strictly increasing keys. The order is part of the type, so
two maps with the same look-ups are equal and a listing is always in key order. Main statements:
`find?_insert`, `find?_erase` and `ext_find?`.
-/

namespace ConceptLedger

/-- A finite map from `α` to `β`, listed by strictly increasing key. -/
structure SortedMap (α : Type) (β : Type) [Ord α] where
  /-- The entries in key order. -/
  entries : List (α × β)
  /-- Keys strictly increase along the entries. -/
  increasing : entries.Pairwise fun a b => compare a.1 b.1 = .lt

namespace SortedMap

variable {α β γ : Type} [Ord α]

/-- The map without entries. -/
def empty : SortedMap α β := ⟨[], .nil⟩

instance : EmptyCollection (SortedMap α β) := ⟨empty⟩
instance : Inhabited (SortedMap α β) := ⟨empty⟩

instance [DecidableEq α] [DecidableEq β] : DecidableEq (SortedMap α β)
  | ⟨a, _⟩, ⟨b, _⟩ =>
    if h : a = b then isTrue (by subst h; rfl) else isFalse fun e => h (by injection e)

/-- The value a list of entries gives to a key, the first one if the key is repeated. -/
def findEntry (k : α) : List (α × β) → Option β
  | [] => none
  | (k', v) :: rest => if compare k k' = .eq then some v else findEntry k rest

/-- The value of a key. -/
def find? (m : SortedMap α β) (k : α) : Option β := findEntry k m.entries

/-- Whether a key has a value. -/
def contains (m : SortedMap α β) (k : α) : Bool := (m.find? k).isSome

/-- Places an entry before the first greater key, over an equal one. -/
def insertEntry (k : α) (v : β) : List (α × β) → List (α × β)
  | [] => [(k, v)]
  | (k', v') :: rest =>
    match compare k k' with
    | .lt => (k, v) :: (k', v') :: rest
    | .eq => (k, v) :: rest
    | .gt => (k', v') :: insertEntry k v rest

theorem mem_insertEntry {k : α} {v : β} {e : α × β} {l : List (α × β)}
    (member : e ∈ insertEntry k v l) : e = (k, v) ∨ e ∈ l := by
  induction l with
  | nil => simpa [insertEntry] using member
  | cons head rest ih =>
    obtain ⟨k', v'⟩ := head
    unfold insertEntry at member
    split at member <;> grind

section Insert

variable [Std.TransOrd α] [Std.LawfulEqOrd α]

theorem insertEntry_increasing {k : α} {v : β} {l : List (α × β)}
    (increasing : l.Pairwise fun a b => compare a.1 b.1 = .lt) :
    (insertEntry k v l).Pairwise fun a b => compare a.1 b.1 = .lt := by
  induction l with
  | nil => simp [insertEntry]
  | cons head rest ih =>
    obtain ⟨k', v'⟩ := head
    obtain ⟨above, tail⟩ := List.pairwise_cons.mp increasing
    unfold insertEntry
    split
    · rename_i before
      refine List.pairwise_cons.mpr ⟨fun e member => ?_, increasing⟩
      rcases List.mem_cons.mp member with rfl | inRest
      · exact before
      · exact Std.TransCmp.lt_trans before (above e inRest)
    · rename_i same
      have keys : k = k' := Std.LawfulEqCmp.compare_eq_iff_eq.mp same
      subst keys
      exact List.pairwise_cons.mpr ⟨above, tail⟩
    · rename_i after
      refine List.pairwise_cons.mpr ⟨fun e member => ?_, ih tail⟩
      rcases mem_insertEntry member with rfl | inRest
      · exact Std.OrientedCmp.gt_iff_lt.mp after
      · exact above e inRest

/-- The map with `v` at `k` and every other key as it was. -/
def insert (m : SortedMap α β) (k : α) (v : β) : SortedMap α β :=
  ⟨insertEntry k v m.entries, insertEntry_increasing m.increasing⟩

/-- The map of a list of entries; of two with one key the later counts. -/
def ofList (l : List (α × β)) : SortedMap α β := l.foldl (fun m e => m.insert e.1 e.2) empty

end Insert

/-- The map without the key `k`. -/
def erase (m : SortedMap α β) (k : α) : SortedMap α β :=
  ⟨m.entries.filter fun e => compare k e.1 != .eq, m.increasing.filter _⟩

/-- The map of the entries that pass a test. -/
def filter (m : SortedMap α β) (keep : α → β → Bool) : SortedMap α β :=
  ⟨m.entries.filter fun e => keep e.1 e.2, m.increasing.filter _⟩

/-- The entries in key order. -/
def toList (m : SortedMap α β) : List (α × β) := m.entries

/-- The keys in order. -/
def keys (m : SortedMap α β) : List α := m.entries.map (·.1)

/-- The values in key order. -/
def values (m : SortedMap α β) : List β := m.entries.map (·.2)

/-- The number of entries. -/
def size (m : SortedMap α β) : Nat := m.entries.length

/-- Whether there are no entries. -/
def isEmpty (m : SortedMap α β) : Bool := m.entries.isEmpty

@[simp] theorem find?_empty (k : α) : (empty : SortedMap α β).find? k = none := rfl

section Laws

variable [Std.LawfulEqOrd α]

theorem findEntry_cons [DecidableEq α] (q k : α) (v : β) (rest : List (α × β)) :
    findEntry q ((k, v) :: rest) = if q = k then some v else findEntry q rest := by
  simp only [findEntry, Std.LawfulEqCmp.compare_eq_iff_eq]

theorem findEntry_insertEntry [DecidableEq α] (k q : α) (v : β) (l : List (α × β)) :
    findEntry q (insertEntry k v l) = if q = k then some v else findEntry q l := by
  induction l with
  | nil => exact findEntry_cons q k v []
  | cons head rest ih =>
    obtain ⟨k', v'⟩ := head
    unfold insertEntry
    split
    · exact findEntry_cons q k v _
    · rename_i same
      have keys : k = k' := Std.LawfulEqCmp.compare_eq_iff_eq.mp same
      subst keys
      by_cases h : q = k <;> simp [findEntry_cons, h]
    · rename_i after
      have apart : k ≠ k' := by
        rintro rfl
        simp at after
      simp only [findEntry_cons, ih]
      by_cases h : q = k'
      · subst h
        simp [Ne.symm apart]
      · simp [h]

theorem find?_insert [Std.TransOrd α] [DecidableEq α] (m : SortedMap α β) (k q : α) (v : β) :
    (m.insert k v).find? q = if q = k then some v else m.find? q :=
  findEntry_insertEntry k q v m.entries

@[simp] theorem find?_insert_self [Std.TransOrd α] [DecidableEq α] (m : SortedMap α β) (k : α)
    (v : β) : (m.insert k v).find? k = some v := by simp [find?_insert]

theorem find?_foldl_insert [Std.TransOrd α] [DecidableEq α] {f : α → Option β}
    {l : List (α × β)} (values : ∀ e ∈ l, f e.1 = some e.2) (m : SortedMap α β) (k : α) :
    (l.foldl (fun m e => m.insert e.1 e.2) m).find? k =
      if k ∈ l.map (·.1) then f k else m.find? k := by
  induction l generalizing m with
  | nil => simp
  | cons e rest ih =>
    rw [List.foldl_cons, ih fun e' later => values e' (List.mem_cons_of_mem _ later), find?_insert,
      List.map_cons]
    have here := values e List.mem_cons_self
    by_cases later : k ∈ rest.map (·.1)
    · simp [later]
    · by_cases first : k = e.1
      · subst first
        simp [later, here]
      · simp [later, first]

/-- The map of entries that all agree with a function gives the value of that function to every
key that is listed. -/
theorem find?_ofList [Std.TransOrd α] [DecidableEq α] {f : α → Option β} {l : List (α × β)}
    (values : ∀ e ∈ l, f e.1 = some e.2) (k : α) :
    (ofList l).find? k = if k ∈ l.map (·.1) then f k else none :=
  find?_foldl_insert values empty k

theorem findEntry_filter_ne [DecidableEq α] (k q : α) (l : List (α × β)) :
    findEntry q (l.filter fun e => compare k e.1 != .eq) =
      if q = k then none else findEntry q l := by
  induction l with
  | nil => simp [findEntry]
  | cons head rest ih =>
    obtain ⟨k', v'⟩ := head
    rw [List.filter_cons]
    by_cases same : k = k'
    · subst same
      simp only [Std.ReflOrd.compare_self, bne_self_eq_false, Bool.false_eq_true, if_false, ih,
        findEntry_cons]
      by_cases h : q = k <;> simp [h]
    · have keep : (compare k k' != .eq) = true := by
        simpa [bne_iff_ne, Std.LawfulEqCmp.compare_eq_iff_eq] using same
      simp only [keep, if_true, findEntry_cons, ih]
      by_cases h : q = k'
      · subst h
        simp [Ne.symm same]
      · simp [h]

theorem find?_erase [DecidableEq α] (m : SortedMap α β) (k q : α) :
    (m.erase k).find? q = if q = k then none else m.find? q :=
  findEntry_filter_ne k q m.entries

theorem findEntry_eq_some_iff {k : α} {v : β} {l : List (α × β)}
    (increasing : l.Pairwise fun a b => compare a.1 b.1 = .lt) :
    findEntry k l = some v ↔ (k, v) ∈ l := by
  induction l with
  | nil => simp [findEntry]
  | cons head rest ih =>
    obtain ⟨k', v'⟩ := head
    obtain ⟨above, tail⟩ := List.pairwise_cons.mp increasing
    simp only [findEntry, Std.LawfulEqCmp.compare_eq_iff_eq, List.mem_cons, Prod.mk.injEq]
    by_cases same : k = k'
    · subst same
      simp only [Std.ReflOrd.compare_self, if_true, Option.some.injEq, true_and]
      constructor
      · exact fun h => Or.inl h.symm
      · rintro (h | member)
        · exact h.symm
        · have below := above _ member
          simp at below
    · simp [same, ih tail]

theorem find?_eq_some_iff {m : SortedMap α β} {k : α} {v : β} :
    m.find? k = some v ↔ (k, v) ∈ m.toList := findEntry_eq_some_iff m.increasing

theorem entries_ext [Std.TransOrd α] {l r : List (α × β)}
    (hl : l.Pairwise fun a b => compare a.1 b.1 = .lt)
    (hr : r.Pairwise fun a b => compare a.1 b.1 = .lt) (members : ∀ e, e ∈ l ↔ e ∈ r) :
    l = r := by
  induction l generalizing r with
  | nil =>
    cases r with
    | nil => rfl
    | cons head rest => exact absurd ((members head).mpr (by simp)) (by simp)
  | cons head rest ih =>
    cases r with
    | nil => exact absurd ((members head).mp (by simp)) (by simp)
    | cons head' rest' =>
      obtain ⟨above, tail⟩ := List.pairwise_cons.mp hl
      obtain ⟨above', tail'⟩ := List.pairwise_cons.mp hr
      have heads : head = head' := by
        rcases List.mem_cons.mp ((members head).mp (by simp)) with same | inRest'
        · exact same
        · rcases List.mem_cons.mp ((members head').mpr (by simp)) with same | inRest
          · exact same.symm
          · have loop := Std.TransCmp.lt_trans (above _ inRest) (above' _ inRest')
            simp at loop
      subst heads
      congr 1
      refine ih tail tail' fun e => ⟨fun member => ?_, fun member => ?_⟩
      · rcases List.mem_cons.mp ((members e).mp (List.mem_cons_of_mem _ member)) with same | found
        · have below := above _ member
          simp [← same] at below
        · exact found
      · rcases List.mem_cons.mp ((members e).mpr (List.mem_cons_of_mem _ member)) with same | found
        · have below := above' _ member
          simp [← same] at below
        · exact found

/-- Maps with the same look-ups are the same map. -/
theorem ext_find? [Std.TransOrd α] {m n : SortedMap α β}
    (same : ∀ k, m.find? k = n.find? k) : m = n := by
  have lists : m.entries = n.entries := entries_ext m.increasing n.increasing fun e => by
    have left : m.find? e.1 = some e.2 ↔ e ∈ m.entries := find?_eq_some_iff
    have right : n.find? e.1 = some e.2 ↔ e ∈ n.entries := find?_eq_some_iff
    rw [← left, ← right, same]
  obtain ⟨l, hl⟩ := m
  obtain ⟨r, hr⟩ := n
  cases lists
  rfl

end Laws

end SortedMap

end ConceptLedger
