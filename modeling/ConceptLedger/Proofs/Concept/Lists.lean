import ConceptLedger.Proofs.Concept.Containment
import ConceptLedger.Proofs.Data.Int64
import ConceptLedger.Proofs.Data.SortedMap

/-!
How containment lists take a child and lose one again, and rules for them: no child twice, no order
key twice, order keys ascending. A rule is kept by entering a child that is not in the list yet, which
sorts an ordered list and refuses a key that is taken, and by leaving entries out.
-/

namespace ConceptLedger

namespace Concept

open PropertyValue

/-- The order keys in a containment list, in the order of the list. -/
def keys (c : Concept) (q : Containment) : List Int64 := (c.entries q).filterMap (·.2)

/-- The entry of a child with its order key. -/
def entryOf (i : OrderedItem) : ConceptId × Option Int64 := (i.value, some i.key)

theorem entries_congr {c c' : Concept} {q : Containment}
    (same : c'.property? q.name = c.property? q.name) : c'.entries q = c.entries q := by
  simp only [entries, same]

theorem entries_setProperty_ordered (c : Concept) (q : Containment) (items : List OrderedItem) :
    (c.setProperty q.name (orderedRefList items)).entries q = items.map entryOf := by
  rw [entries, property?_setProperty_self]
  rfl

theorem entries_setProperty_unordered (c : Concept) (q : Containment) (ids : List ConceptId) :
    (c.setProperty q.name (refList ids)).entries q = ids.map (·, none) := by
  rw [entries, property?_setProperty_self]

theorem entries_of_ordered {c : Concept} {q : Containment} (ordered : q.ordered = true)
    (shaped : containmentComplaint? q (c.property? q.name) = none) :
    c.entries q = (orderedItems (c.property? q.name)).map entryOf := by
  unfold entries
  cases stored : c.property? q.name with
  | none => rfl
  | some value =>
    rw [stored] at shaped
    cases value <;> simp_all [containmentComplaint?, orderedItems, entryOf]

theorem entries_of_unordered {c : Concept} {q : Containment} (unordered : q.ordered = false)
    (shaped : containmentComplaint? q (c.property? q.name) = none) :
    c.entries q = (((c.property? q.name).map referenced).getD []).map (·, none) := by
  unfold entries
  cases stored : c.property? q.name with
  | none => rfl
  | some value =>
    rw [stored] at shaped
    cases value <;> simp_all [containmentComplaint?, referenced]

/-- How a list is extended: at its end, or with a key of its own and sorted by keys. -/
inductive Extends (before : List (ConceptId × Option Int64)) (child : ConceptId) :
    List (ConceptId × Option Int64) → Prop
  | last : Extends before child (before ++ [(child, none)])
  | sorted {items : List OrderedItem} {key : Int64} (held : before = items.map entryOf)
      (free : ∀ i ∈ items, i.key ≠ key) :
      Extends before child ((sortByKey (·.key) (items ++ [⟨key, child⟩])).map entryOf)

theorem extendedList_extends {container : Concept} {q : Containment} {child : ConceptId}
    {orderKey : Option Int64} {value : PropertyValue}
    (shaped : containmentComplaint? q (container.property? q.name) = none)
    (run : extendedList container q child orderKey = .ok value) :
    Extends (container.entries q) child ((container.setProperty q.name value).entries q) := by
  obtain ⟨unordered, -, rfl⟩ | ⟨ordered, key, -, free, rfl⟩ := extendedList_cases run
  · rw [entries_setProperty_unordered, List.map_append, ← entries_of_unordered unordered shaped]
    exact .last
  · rw [entries_setProperty_ordered]
    exact .sorted (entries_of_ordered ordered shaped) free

/-- A list in the order of its keys. -/
def InKeyOrder (l : List (ConceptId × Option Int64)) : Prop := (l.filterMap (·.2)).Pairwise (· ≤ ·)

/-- The order key of a new child: the given one, or one above the greatest, and one in an empty list. -/
inductive KeyFor (taken : List Int64) : Option Int64 → Int64 → Prop
  | given (key : Int64) : KeyFor taken (some key) key
  | first (empty : taken = []) : KeyFor taken none 1
  | next {last : Int64} (held : last ∈ taken) (greatest : ∀ key ∈ taken, key ≤ last)
      (room : last ≠ Int64.maxValue) : KeyFor taken none (last + 1)

/-- How a containment list takes a child: at its end, or with a key that is not taken, in the order of
keys. A list that was in this order before has just got one more entry. -/
inductive Inserted (q : Containment) (child : ConceptId) (orderKey : Option Int64)
    (before : List (ConceptId × Option Int64)) : List (ConceptId × Option Int64) → Prop
  | last (unordered : q.ordered = false) (unkeyed : orderKey = none) :
      Inserted q child orderKey before (before ++ [(child, none)])
  | sorted {key : Int64} {after : List (ConceptId × Option Int64)} (ordered : q.ordered = true)
      (keyed : KeyFor (before.filterMap (·.2)) orderKey key) (free : key ∉ before.filterMap (·.2))
      (kept : after.Perm (before ++ [(child, some key)])) (inOrder : InKeyOrder after)
      (placed : InKeyOrder before →
        ∃ front back, before = front ++ back ∧ after = front ++ (child, some key) :: back) :
      Inserted q child orderKey before after

theorem filterMap_entryOf (items : List OrderedItem) :
    (items.map entryOf).filterMap (·.2) = items.map (·.key) := by
  rw [List.filterMap_map]
  exact congrFun (List.filterMap_eq_map (f := OrderedItem.key)) items

theorem inKeyOrder_iff {items : List OrderedItem} : InKeyOrder (items.map entryOf) ↔
    items.Pairwise fun i j => (compare i.key j.key).isLE := by
  unfold InKeyOrder
  rw [filterMap_entryOf, List.pairwise_map]
  exact List.Pairwise.iff fun _ _ => Std.isLE_compare.symm

theorem keyFor_of_nextKey? {orderKey : Option Int64} {items : List OrderedItem} {key : Int64}
    (next : nextKey? orderKey items = some key) : KeyFor (items.map (·.key)) orderKey key := by
  unfold nextKey? at next
  split at next
  · cases next
    exact .given key
  · rename_i greatest
    cases next
    exact .first (List.max?_eq_none_iff.mp greatest)
  · rename_i last greatest
    split at next
    · cases next
    · rename_i room
      cases next
      obtain ⟨held, bound⟩ := List.max?_eq_some_iff.mp greatest
      exact .next held bound room

/-- What a list is extended by is inserted. -/
theorem extendedList_inserted {container : Concept} {q : Containment} {child : ConceptId}
    {orderKey : Option Int64} {value : PropertyValue}
    (shaped : containmentComplaint? q (container.property? q.name) = none)
    (run : extendedList container q child orderKey = .ok value) :
    Inserted q child orderKey (container.entries q)
      ((container.setProperty q.name value).entries q) := by
  obtain ⟨unordered, unkeyed, rfl⟩ | ⟨ordered, key, next, free, rfl⟩ := extendedList_cases run
  · rw [entries_setProperty_unordered, List.map_append, ← entries_of_unordered unordered shaped]
    exact .last unordered unkeyed
  · rw [entries_setProperty_ordered, entries_of_ordered ordered shaped]
    generalize orderedItems (container.property? q.name) = items at *
    have perm := (sortByKey_perm (·.key) (items ++ [(⟨key, child⟩ : OrderedItem)])).map entryOf
    rw [List.map_append] at perm
    have keyed : KeyFor ((items.map entryOf).filterMap (·.2)) orderKey key := by
      rw [filterMap_entryOf]
      exact keyFor_of_nextKey? next
    have untaken : key ∉ (items.map entryOf).filterMap (·.2) := by
      rw [filterMap_entryOf]
      intro taken
      obtain ⟨i, held, same⟩ := List.mem_map.mp taken
      exact free i held same
    refine .sorted ordered keyed untaken perm (inKeyOrder_iff.mpr (sortByKey_ascending _))
      fun ascending => ?_
    obtain ⟨front, back, rfl, sorted⟩ : ∃ front back, items = front ++ back ∧
        sortByKey (·.key) (items ++ [⟨key, child⟩]) = front ++ ⟨key, child⟩ :: back :=
      sortByKey_concat (inKeyOrder_iff.mp ascending)
    exact ⟨front.map entryOf, back.map entryOf, List.map_append, by rw [sorted, List.map_append]; rfl⟩

/-- How a containment list takes several children, one after the other. -/
inductive Inserts (q : Containment) : List (ConceptId × Option Int64) →
    List (ConceptId × Option Int64) → List (ConceptId × Option Int64) → Prop
  | done {l : List (ConceptId × Option Int64)} : Inserts q [] l l
  | next {child : ConceptId} {orderKey : Option Int64}
      {more before middle after : List (ConceptId × Option Int64)}
      (first : Inserted q child orderKey before middle) (later : Inserts q more middle after) :
      Inserts q ((child, orderKey) :: more) before after

theorem Inserts.trans {q : Containment} {a b l l' l'' : List (ConceptId × Option Int64)}
    (first : Inserts q a l l') (later : Inserts q b l' l'') : Inserts q (a ++ b) l l'' := by
  induction first with
  | done => exact later
  | next inserted _ ih => exact .next inserted (ih later)

/-- A child whose key is above all that are taken is entered at the end, as it is in a list without
order. -/
theorem Inserted.last_of_above {q : Containment} {child : ConceptId} {orderKey : Option Int64}
    {before after : List (ConceptId × Option Int64)}
    (keyed : ∀ entry ∈ before ++ [(child, orderKey)], entry.2.isSome = q.ordered)
    (ascending : ((before ++ [(child, orderKey)]).filterMap (·.2)).Pairwise (· < ·))
    (inserted : Inserted q child orderKey before after) : after = before ++ [(child, orderKey)] := by
  cases inserted with
  | last unordered unkeyed => rw [unkeyed]
  | @sorted key _ ordered given free kept inOrder placed =>
    have here : orderKey.isSome = q.ordered := keyed (child, orderKey) (by simp)
    rw [ordered] at here
    obtain ⟨own, rfl⟩ := Option.isSome_iff_exists.mp here
    obtain rfl : key = own := by
      cases given
      rfl
    rw [List.filterMap_append] at ascending
    obtain ⟨below, -, above⟩ := List.pairwise_append.mp ascending
    obtain ⟨front, back, rfl, rfl⟩ := placed (below.imp Int64.le_of_lt)
    -- an entry behind the new one would have a greater key
    cases back with
    | nil => rw [List.append_nil]
    | cons entry rest =>
      have held : entry.2.isSome = true := ordered ▸ keyed entry (by simp)
      obtain ⟨other, value⟩ := Option.isSome_iff_exists.mp held
      have less : other < key := above other (by simp [value]) key (by simp)
      unfold InKeyOrder at inOrder
      rw [List.filterMap_append, List.filterMap_cons, List.filterMap_cons, value] at inOrder
      have more := (List.pairwise_cons.mp (List.pairwise_append.mp inOrder).2.1).1 other
        List.mem_cons_self
      exact absurd (Int64.lt_of_lt_of_le less more) Int64.lt_irrefl

/-- Children that are given in the order of their keys are entered in this order. -/
theorem Inserts.eq_append {q : Containment} {more before after : List (ConceptId × Option Int64)}
    (keyed : ∀ entry ∈ before ++ more, entry.2.isSome = q.ordered)
    (ascending : ((before ++ more).filterMap (·.2)).Pairwise (· < ·))
    (inserts : Inserts q more before after) : after = before ++ more := by
  induction inserts with
  | done => rw [List.append_nil]
  | @next child orderKey more before middle after first later ih =>
    rw [List.append_cons] at keyed ascending ⊢
    have start := first.last_of_above
      (fun entry member => keyed entry (List.mem_append_left _ member))
      (ascending.sublist ((List.sublist_append_left _ _).filterMap _))
    subst start
    exact ih keyed ascending

/-- Taking a child out of all lists leaves just its entries out. -/
theorem entries_detach_eq {c : Concept} {child : ConceptId} {q : Containment}
    (member : q ∈ c.conceptType.containment) :
    (c.detach child).entries q = (c.entries q).filter (·.1 ≠ child) := by
  unfold entries
  rw [property?_detach member]
  cases c.property? q.name with
  | none => rfl
  | some value =>
    cases value with
    | refList ids => simp [withoutChild, List.filter_map, Function.comp_def]
    | orderedRefList items => simp [withoutChild, List.filter_map, Function.comp_def]
    | _ => rfl

theorem entries_detach {c : Concept} {child : ConceptId} {q : Containment}
    (member : q ∈ c.conceptType.containment) : ((c.detach child).entries q).Sublist (c.entries q) := by
  rw [entries_detach_eq member]
  exact List.filter_sublist

end Concept

open ConceptLedger.Concept

/-- A rule that holds of the empty list and is kept by leaving entries out and by entering a child
that the list does not have. -/
structure ListRule (P : List (ConceptId × Option Int64) → Prop) : Prop where
  empty : P []
  thinned : ∀ l l', l'.Sublist l → P l → P l'
  extended : ∀ before child after, Extends before child after → child ∉ before.map (·.1) →
    P before → P after

namespace ListRule

theorem map_entryOf (items : List OrderedItem) : (items.map entryOf).map (·.1) = items.map (·.value) := by
  rw [List.map_map]
  rfl

/-- No child is listed twice. -/
theorem children : ListRule fun l => (l.map (·.1)).Nodup where
  empty := List.nodup_nil
  thinned _ _ thin nodup := nodup.sublist (thin.map _)
  extended before child after grows fresh nodup := by
    have more : (before.map (·.1) ++ [child]).Nodup :=
      List.nodup_append.mpr ⟨nodup, List.nodup_singleton child, fun a old b new same =>
        fresh (List.mem_singleton.mp new ▸ same ▸ old)⟩
    cases grows with
    | last => simpa using more
    | sorted held _ =>
      subst held
      rw [map_entryOf] at more ⊢
      exact ((sortByKey_perm _ _).map _).nodup_iff.mpr (by simpa using more)

/-- No order key is taken twice. -/
theorem keys : ListRule fun l => (l.filterMap (·.2)).Nodup where
  empty := List.nodup_nil
  thinned _ _ thin nodup := nodup.sublist (thin.filterMap _)
  extended before child after grows _ nodup := by
    cases grows with
    | last => simpa using nodup
    | @sorted items key held free =>
      subst held
      rw [filterMap_entryOf] at nodup ⊢
      refine ((sortByKey_perm _ _).map _).nodup_iff.mpr ?_
      rw [List.map_append, List.nodup_append]
      refine ⟨nodup, List.nodup_singleton key, fun a old b new same => ?_⟩
      obtain ⟨i, inside, rfl⟩ := List.mem_map.mp old
      exact free i inside (same.trans (List.mem_singleton.mp new))

/-- The order keys ascend. -/
theorem ascending : ListRule fun l => (l.filterMap (·.2)).Pairwise (· < ·) where
  empty := .nil
  thinned _ _ thin sorted := sorted.sublist (thin.filterMap _)
  extended before child after grows _ sorted := by
    cases grows with
    | last => simpa using sorted
    | @sorted items key held free =>
      subst held
      rw [filterMap_entryOf] at sorted ⊢
      have apart : (items ++ [(⟨key, child⟩ : OrderedItem)]).Pairwise fun a b => a.key ≠ b.key := by
        refine List.pairwise_append.mpr ⟨?_, List.pairwise_singleton _ _, fun i inside j last => ?_⟩
        · exact (List.pairwise_map.mp sorted).imp fun below => Int64.ne_of_lt below
        · rw [List.mem_singleton.mp last]
          exact free i inside
      refine List.pairwise_map.mpr ((sortByKey_increasing apart).imp fun below => ?_)
      exact Std.compare_eq_lt.mp below

end ListRule

end ConceptLedger
