import ConceptLedger.Batch.Execute
import ConceptLedger.Store.Memory
import ConceptLedger.Proofs.Containment.Forest
import Mathlib.Data.Finset.Card
import Mathlib.Logic.Relation

/-!
The walk through the contents of a concept. Whatever the stored lists are like, it enters every stored
concept that they lead to once, children before their parents where these are not among their own
contents: what it has seen is either entered already or on the way down from the top, and the bound
on its depth is enough because every step down meets a stored concept for the first time. In a forest
the lists lead to just what is contained.
-/

namespace ConceptLedger.Batch

open Forest Outline Relation

/-- One identifier has the other in a containment list of the concept that is stored under it. -/
def Lists (f : ConceptId → Option Concept) (x y : ConceptId) : Prop :=
  ∃ c, f x = some c ∧ y ∈ c.childIds

/-- One identifier leads to the other through the lists of stored concepts. -/
abbrev Leads (f : ConceptId → Option Concept) : ConceptId → ConceptId → Prop :=
  ReflTransGen (Lists f)

/-- An order in which the stored concepts that the lists of one lead to can be removed, with their types:
each one once and, if it does not lead back to its parent, before it. -/
structure Collected (f : ConceptId → Option Concept) (top : ConceptId)
    (order : List (ConceptId × ConceptType)) : Prop where
  once : (order.map (·.1)).Nodup
  exact : ∀ x, x ∈ order.map (·.1) ↔ (f x).isSome = true ∧ Leads f top x
  typed : ∀ e ∈ order, (f e.1).map (·.conceptType) = some e.2
  sorted : (order.map (·.1)).Pairwise fun x y => Lists f x y → Leads f y x

/-- The identifiers that a walk has entered. -/
def Walk.ids (w : Walk) : List ConceptId := w.order.map (·.1)

/-- The identifiers among given ones that a walk has not seen. -/
def Walk.unseen (all : Finset ConceptId) (w : Walk) : Finset ConceptId := all.filter (· ∉ w.seen)

/-- A walk from `top` in progress: what it saw of the stored concepts is entered, apart from those
on the way, from the current one up to the top. Whatever stands on the way leads down to what stands
before it. -/
structure Walked (f : ConceptId → Option Concept) (top : ConceptId) (way : List ConceptId)
    (w : Walk) : Prop where
  once : (w.ids ++ way).Nodup
  known : ∀ x ∈ w.ids ++ way, x ∈ w.seen
  entered : ∀ x ∈ w.seen, (f x).isSome = true → x ∈ w.ids ++ way
  reached : ∀ x ∈ w.ids ++ way, Leads f top x
  sorted : (w.ids ++ way).Pairwise fun x y => Lists f x y → Leads f y x
  path : way.Pairwise fun x y => Leads f y x
  followed : ∀ x ∈ w.ids, ∀ y, Lists f x y → y ∈ w.seen
  typed : ∀ e ∈ w.order, (f e.1).map (·.conceptType) = some e.2

/-- One walk goes on from another. -/
structure Extends (w w' : Walk) : Prop where
  seen : ∀ x ∈ w.seen, x ∈ w'.seen
  ids : ∀ x ∈ w.ids, x ∈ w'.ids

namespace Extends

theorem refl (w : Walk) : Extends w w := ⟨fun _ member => member, fun _ member => member⟩

theorem trans {w₁ w₂ w₃ : Walk} (first : Extends w₁ w₂) (later : Extends w₂ w₃) : Extends w₁ w₃ :=
  ⟨fun x member => later.seen x (first.seen x member),
    fun x member => later.ids x (first.ids x member)⟩

theorem meet (w : Walk) (y : ConceptId) : Extends w { w with seen := y :: w.seen } :=
  ⟨fun _ member => List.mem_cons_of_mem _ member, fun _ member => member⟩

theorem enter (w : Walk) (entry : ConceptId × ConceptType) :
    Extends w { w with order := w.order ++ [entry] } := by
  refine ⟨fun _ member => member, fun x member => ?_⟩
  simp only [Walk.ids, List.map_append, List.mem_append]
  exact .inl member

end Extends

variable {f : ConceptId → Option Concept} {top : ConceptId} {all : Finset ConceptId}

theorem unseen_mono {w w' : Walk} (run : Extends w w') :
    (w'.unseen all).card ≤ (w.unseen all).card := by
  refine Finset.card_le_card fun x member => ?_
  obtain ⟨inside, unseen⟩ := Finset.mem_filter.mp member
  exact Finset.mem_filter.mpr ⟨inside, fun before => unseen (run.seen x before)⟩

theorem unseen_lt {w : Walk} {y : ConceptId} (inside : y ∈ all) (fresh : y ∉ w.seen) :
    (Walk.unseen all { w with seen := y :: w.seen }).card < (w.unseen all).card := by
  refine Finset.card_lt_card (Finset.ssubset_iff_of_subset ?_ |>.mpr ⟨y, ?_, ?_⟩)
  · intro x member
    obtain ⟨inside, unseen⟩ := Finset.mem_filter.mp member
    exact Finset.mem_filter.mpr ⟨inside, fun before => unseen (List.mem_cons_of_mem _ before)⟩
  · exact Finset.mem_filter.mpr ⟨inside, fresh⟩
  · intro member
    exact (Finset.mem_filter.mp member).2 List.mem_cons_self

namespace Walked

variable {way : List ConceptId} {w : Walk} {x y : ConceptId} {c : Concept}

theorem start (f : ConceptId → Option Concept) (top : ConceptId) :
    Walked f top [top] ⟨[top], []⟩ where
  once := List.nodup_singleton _
  known _ member := member
  entered _ member _ := member
  reached _ member := List.mem_singleton.mp member ▸ .refl
  sorted := List.pairwise_singleton _ _
  path := List.pairwise_singleton _ _
  followed _ member := nomatch member
  typed _ member := nomatch member

/-- What is not stored is seen and passed over. -/
theorem pass (walked : Walked f top way w) (absent : f y = none) :
    Walked f top way { w with seen := y :: w.seen } where
  once := walked.once
  known x member := List.mem_cons_of_mem _ (walked.known x member)
  entered x member here := by
    rcases List.mem_cons.mp member with rfl | before
    · rw [absent] at here
      cases here
    · exact walked.entered x before here
  reached := walked.reached
  sorted := walked.sorted
  path := walked.path
  followed x member z listed := List.mem_cons_of_mem _ (walked.followed x member z listed)
  typed := walked.typed

/-- A child that is seen for the first time is next on the way. Nothing that is entered lists it, as
the children of that are seen. -/
theorem meet (walked : Walked f top (x :: way) w) (fresh : y ∉ w.seen) (listed : Lists f x y) :
    Walked f top (y :: x :: way) { w with seen := y :: w.seen } where
  once := List.nodup_middle.mpr
    (List.nodup_cons.mpr ⟨fun before => fresh (walked.known y before), walked.once⟩)
  known z member := by
    rcases List.mem_cons.mp (List.perm_middle.mem_iff.mp member) with rfl | before
    · exact List.mem_cons_self
    · exact List.mem_cons_of_mem _ (walked.known z before)
  entered z member here := by
    refine List.perm_middle.mem_iff.mpr ?_
    rcases List.mem_cons.mp member with rfl | before
    · exact List.mem_cons_self
    · exact List.mem_cons_of_mem _ (walked.entered z before here)
  reached z member := by
    rcases List.mem_cons.mp (List.perm_middle.mem_iff.mp member) with rfl | before
    · exact (walked.reached x (List.mem_append_right _ List.mem_cons_self)).tail listed
    · exact walked.reached z before
  sorted := by
    obtain ⟨ids, rest, between⟩ := List.pairwise_append.mp walked.sorted
    refine List.pairwise_append.mpr ⟨ids, List.pairwise_cons.mpr ⟨fun z onWay _ => ?_, rest⟩, ?_⟩
    · rcases List.mem_cons.mp onWay with rfl | above
      · exact .single listed
      · exact (((List.pairwise_cons.mp walked.path).1 z above).tail listed)
    · intro e inside z member lists
      rcases List.mem_cons.mp member with rfl | onWay
      · exact absurd (walked.followed e inside z lists) fresh
      · exact between e inside z onWay lists
  path := by
    refine List.pairwise_cons.mpr ⟨fun z onWay => ?_, walked.path⟩
    rcases List.mem_cons.mp onWay with rfl | above
    · exact .single listed
    · exact ((List.pairwise_cons.mp walked.path).1 z above).tail listed
  followed z member u lists := List.mem_cons_of_mem _ (walked.followed z member u lists)
  typed := walked.typed

/-- When all its children are seen, the current concept is entered, which leaves the line of what is
entered and what is on the way as it was. -/
theorem enter (stored : f c.id = some c) (walked : Walked f top (c.id :: way) w)
    (seen : ∀ y ∈ c.childIds, y ∈ w.seen) :
    Walked f top way { w with order := w.order ++ [(c.id, c.conceptType)] } := by
  have line : Walk.ids { w with order := w.order ++ [(c.id, c.conceptType)] } ++ way =
      w.ids ++ c.id :: way := by
    simp [Walk.ids]
  exact {
    once := line ▸ walked.once
    known := line ▸ walked.known
    entered := line ▸ walked.entered
    reached := line ▸ walked.reached
    sorted := line ▸ walked.sorted
    path := (List.pairwise_cons.mp walked.path).2
    followed := by
      intro x member y lists
      obtain ⟨e, last, rfl⟩ := List.mem_map.mp member
      rcases List.mem_append.mp last with before | here
      · exact walked.followed e.1 (List.mem_map_of_mem before) y lists
      · obtain rfl := List.mem_singleton.mp here
        obtain ⟨c', stored', listed⟩ := lists
        cases stored.symm.trans stored'
        exact seen y listed
    typed := by
      intro e member
      rcases List.mem_append.mp member with before | here
      · exact walked.typed e before
      · obtain rfl := List.mem_singleton.mp here
        rw [stored]
        rfl }

/-- A walk that is over has entered all that is stored and that it can come to. -/
theorem collected (walked : Walked f top [] w) (entered : top ∈ w.ids) :
    Collected f top w.order := by
  have line : w.ids ++ [] = w.ids := List.append_nil _
  have once : w.ids.Nodup := line ▸ walked.once
  have sorted : w.ids.Pairwise _ := line ▸ walked.sorted
  refine ⟨once, fun x => ⟨fun member => ?_, fun both => ?_⟩, walked.typed, sorted⟩
  · obtain ⟨e, inside, rfl⟩ := List.mem_map.mp member
    refine ⟨?_, walked.reached e.1 (List.mem_append_left _ member)⟩
    obtain ⟨c, stored, -⟩ := Option.map_eq_some_iff.mp (walked.typed e inside)
    rw [stored]
    rfl
  · obtain ⟨here, leads⟩ := both
    induction leads with
    | refl => exact entered
    | @tail z x _ lists ih =>
      obtain ⟨c, stored, -⟩ := id lists
      have above : z ∈ w.ids := ih (by rw [stored]; rfl)
      have member := walked.entered x (walked.followed z above x lists) here
      rwa [line] at member

end Walked

/-- A way to walk down from a concept that, with at most so many identifiers unseen, succeeds and
leaves nothing out. -/
def Descends (f : ConceptId → Option Concept) (top : ConceptId) (all : Finset ConceptId)
    (depth : Nat) (descend : Concept → Walk → Except Failure Walk) : Prop :=
  ∀ (c : Concept) (w : Walk) (way : List ConceptId), f c.id = some c →
    Walked f top (c.id :: way) w → (w.unseen all).card < depth →
    ∃ w', descend c w = .ok w' ∧ Walked f top way w' ∧ Extends w w' ∧ c.id ∈ w'.ids

section Visit

variable {depth : Nat} {descend : Concept → Walk → Except Failure Walk} {c : Concept}
  {way : List ConceptId}

variable (keyed : ∀ x c, f x = some c → c.id = x) (known : ∀ x, (f x).isSome = true → x ∈ all)

include keyed known

theorem visit_ok (down : Descends f top all depth descend) (stored : f c.id = some c) {y : ConceptId}
    (child : y ∈ c.childIds) {w : Walk} (walked : Walked f top (c.id :: way) w)
    (room : (w.unseen all).card < depth + 1) :
    ∃ w', visit (fun id => .ok (f id)) descend w y = .ok w' ∧ Walked f top (c.id :: way) w' ∧
      Extends w w' ∧ y ∈ w'.seen := by
  unfold visit
  by_cases before : y ∈ w.seen
  · rw [if_pos before]
    exact ⟨w, rfl, walked, .refl w, before⟩
  · rw [if_neg before]
    have met := Extends.meet w y
    cases found : f y with
    | none =>
      exact ⟨{ w with seen := y :: w.seen }, by simp only [found]; rfl, walked.pass found, met,
        List.mem_cons_self⟩
    | some inner =>
      obtain rfl : inner.id = y := keyed y inner found
      have walked' := walked.meet before ⟨c, stored, child⟩
      have fresh := unseen_lt (known inner.id (by rw [found]; rfl)) before
      obtain ⟨w', run, walked'', extends', -⟩ := down inner _ _ found walked' (by omega)
      exact ⟨w', by simp only [found]; exact run, walked'', met.trans extends',
        extends'.seen _ List.mem_cons_self⟩

theorem visitAll_ok (down : Descends f top all depth descend) (stored : f c.id = some c)
    {l : List ConceptId} (children : ∀ y ∈ l, y ∈ c.childIds) {w : Walk}
    (walked : Walked f top (c.id :: way) w) (room : (w.unseen all).card < depth + 1) :
    ∃ w', l.foldlM (visit (fun id => .ok (f id)) descend) w = .ok w' ∧
      Walked f top (c.id :: way) w' ∧ Extends w w' ∧ ∀ y ∈ l, y ∈ w'.seen := by
  induction l generalizing w with
  | nil => exact ⟨w, rfl, walked, .refl w, fun _ member => nomatch member⟩
  | cons y rest ih =>
    obtain ⟨w₁, first, walked₁, extends₁, seen₁⟩ :=
      visit_ok keyed known down stored (children y List.mem_cons_self) walked room
    obtain ⟨w₂, later, walked₂, extends₂, seen₂⟩ := ih
      (fun z member => children z (List.mem_cons_of_mem _ member)) walked₁
      (Nat.lt_of_le_of_lt (unseen_mono extends₁) room)
    refine ⟨w₂, ?_, walked₂, extends₁.trans extends₂, fun z member => ?_⟩
    · rw [List.foldlM_cons, first]
      exact later
    · rcases List.mem_cons.mp member with rfl | member
      · exact extends₂.seen z seen₁
      · exact seen₂ z member

theorem walk_descends (depth : Nat) :
    Descends f top all depth (walk (fun id => .ok (f id)) depth) := by
  induction depth with
  | zero => exact fun c w way stored walked room => absurd room (Nat.not_lt_zero _)
  | succ depth ih =>
    intro c w way stored walked room
    obtain ⟨w₁, run, walked₁, extends₁, seen₁⟩ :=
      visitAll_ok keyed known ih stored (fun _ member => member) walked room
    refine ⟨_, ?_, walked₁.enter stored seen₁, ?_, ?_⟩
    · rw [walk, run]
      rfl
    · exact extends₁.trans (.enter _ _)
    · simp [Walk.ids]

end Visit

/-- The identifiers under which contents store something, in any partition. -/
def storedIds (s : Memory.Contents) : Finset ConceptId := (s.concepts.keys.map Address.id).toFinset

theorem mem_storedIds {s : Memory.Contents} {p : Partition} {x : ConceptId}
    (here : (s.find? p x).isSome = true) : x ∈ storedIds s := by
  obtain ⟨c, found⟩ := Option.isSome_iff_exists.mp here
  have entry := SortedMap.find?_eq_some_iff.mp found
  exact List.mem_toFinset.mpr
    (List.mem_map.mpr ⟨⟨p, x⟩, List.mem_map_of_mem (f := Prod.fst) entry, rfl⟩)

/-- No more different concepts are stored than the extent of the store says. -/
theorem card_le_extent {v : Memory.View} (within : all ⊆ storedIds v.contents) :
    all.card ≤ ConceptStore.extent v := by
  have bound : all.card ≤ v.contents.concepts.size := by
    refine (Finset.card_le_card within).trans ((List.toFinset_card_le _).trans ?_)
    simp [SortedMap.keys, SortedMap.size]
  exact bound.trans (Nat.le_add_right _ _)

/-- A walk through a store has enough depth: it cannot meet more than is stored. -/
theorem unseen_lt_extent {v : Memory.View} (within : all ⊆ storedIds v.contents) (w : Walk) :
    (w.unseen all).card < ConceptStore.extent v + 1 :=
  Nat.lt_succ_of_le ((Finset.card_filter_le _ _).trans (card_le_extent within))

section Depth

variable {lookup : ConceptId → Except Failure (Option Concept)} {depth depth' : Nat}
  {descend descend' : Concept → Walk → Except Failure Walk}

theorem visit_extends (grows : ∀ c w w', descend c w = .ok w' → Extends w w') {y : ConceptId}
    {w w' : Walk} (run : visit lookup descend w y = .ok w') : Extends w w' := by
  unfold visit at run
  split at run
  · cases run
    exact .refl w
  · obtain ⟨found, -, rest⟩ := Except.bind_ok run
    have met := Extends.meet w y
    cases found with
    | none =>
      cases rest
      exact met
    | some inner => exact met.trans (grows inner _ _ rest)

theorem visitAll_extends (grows : ∀ c w w', descend c w = .ok w' → Extends w w')
    {l : List ConceptId} {w w' : Walk} (run : l.foldlM (visit lookup descend) w = .ok w') :
    Extends w w' := by
  induction l generalizing w with
  | nil =>
    cases run
    exact .refl _
  | cons y rest ih =>
    rw [List.foldlM_cons] at run
    obtain ⟨w₁, first, later⟩ := Except.bind_ok run
    exact (visit_extends grows first).trans (ih later)

theorem walk_extends (depth : Nat) (c : Concept) (w w' : Walk)
    (run : walk lookup depth c w = .ok w') : Extends w w' := by
  induction depth generalizing c w w' with
  | zero =>
    cases run
    exact .enter _ _
  | succ depth ih =>
    obtain ⟨w₁, visited, rfl⟩ := Except.map_ok run
    exact (visitAll_extends ih visited).trans (.enter w₁ _)

theorem visit_congr (known : ∀ x, (f x).isSome = true → x ∈ all)
    (same : ∀ c w, (w.unseen all).card < depth → descend c w = descend' c w) {w : Walk}
    (y : ConceptId) (room : (w.unseen all).card < depth + 1) :
    visit (fun id => .ok (f id)) descend w y = visit (fun id => .ok (f id)) descend' w y := by
  unfold visit
  split
  · rfl
  · rename_i fresh
    cases found : f y with
    | none => simp only [found, Except.bind]
    | some inner =>
      have fewer := unseen_lt (known y (by rw [found]; rfl)) fresh
      have below : (Walk.unseen all { w with seen := y :: w.seen }).card < depth := by omega
      simp only [found]
      exact same inner _ below

theorem visitAll_congr (known : ∀ x, (f x).isSome = true → x ∈ all)
    (same : ∀ c w, (w.unseen all).card < depth → descend c w = descend' c w)
    (grows : ∀ c w w', descend' c w = .ok w' → Extends w w') (l : List ConceptId) {w : Walk}
    (room : (w.unseen all).card < depth + 1) :
    l.foldlM (visit (fun id => .ok (f id)) descend) w =
      l.foldlM (visit (fun id => .ok (f id)) descend') w := by
  induction l generalizing w with
  | nil => rfl
  | cons y rest ih =>
    rw [List.foldlM_cons, List.foldlM_cons, visit_congr known same y room]
    cases first : visit (fun id => .ok (f id)) descend' w y with
    | error e => rfl
    | ok w₁ =>
      exact ih (Nat.lt_of_le_of_lt (unseen_mono (visit_extends grows first)) room)

/-- A walk that has enough depth goes the same way with more of it: the depth goes down by one only
where something stored is met for the first time. -/
theorem walk_deeper (known : ∀ x, (f x).isSome = true → x ∈ all) (c : Concept) (w : Walk)
    (room : (w.unseen all).card < depth) (deeper : depth ≤ depth') :
    walk (fun id => .ok (f id)) depth c w = walk (fun id => .ok (f id)) depth' c w := by
  induction depth generalizing depth' c w with
  | zero => exact absurd room (Nat.not_lt_zero _)
  | succ depth ih =>
    obtain ⟨depth', rfl⟩ := Nat.exists_eq_add_of_le' (Nat.le_trans (Nat.le_add_left 1 depth) deeper)
    have same := visitAll_congr known (fun c w room => ih c w room (Nat.le_of_succ_le_succ deeper))
      (walk_extends depth') c.childIds room
    exact congrArg (Except.map _) same

end Depth

/-- What a subtree lists depends only on the concepts of the partition, however much else is
stored. -/
theorem subtree_congr {v w : Memory.View} {p : Partition}
    (same : v.contents.find? p = w.contents.find? p) (root : Concept) :
    subtree v p root = subtree w p root := by
  have lookup : ∀ u : Memory.View, ConceptStore.find? u p = fun id => .ok (u.contents.find? p id) :=
    fun u => funext fun id => Memory.View.find?_eq u p id
  let all := storedIds v.contents ∩ storedIds w.contents
  have known : ∀ x, (w.contents.find? p x).isSome = true → x ∈ all := fun x here =>
    Finset.mem_inter.mpr ⟨mem_storedIds (same ▸ here), mem_storedIds here⟩
  have left : (Walk.unseen all ⟨[root.id], []⟩).card < ConceptStore.extent v + 1 :=
    unseen_lt_extent Finset.inter_subset_left _
  have right : (Walk.unseen all ⟨[root.id], []⟩).card < ConceptStore.extent w + 1 :=
    unseen_lt_extent Finset.inter_subset_right _
  unfold subtree
  rw [lookup v, lookup w, same]
  congr 1
  rcases Nat.le_total (ConceptStore.extent v) (ConceptStore.extent w) with deeper | deeper
  · exact walk_deeper known root _ left (Nat.succ_le_succ deeper)
  · exact (walk_deeper known root _ right (Nat.succ_le_succ deeper)).symm

/-- Whatever is stored, a subtree is collected, and no further with more depth. -/
theorem subtree_collected {σ : Type} [ConceptStore σ] {v : σ} {p : Partition} {c : Concept}
    (lookup : ConceptStore.find? v p = fun id => .ok (f id)) (keyed : ∀ x c, f x = some c → c.id = x)
    (known : ∀ x, (f x).isSome = true → x ∈ all)
    (room : (Walk.unseen all ⟨[c.id], []⟩).card < ConceptStore.extent v + 1)
    (stored : f c.id = some c) :
    ∃ order, subtree v p c = .ok order ∧ Collected f c.id order ∧
      ∀ more, (walk (ConceptStore.find? v p) (ConceptStore.extent v + 1 + more) c ⟨[c.id], []⟩).map
        (·.order) = .ok order := by
  obtain ⟨w, run, walked, -, entered⟩ :=
    walk_descends keyed known _ c ⟨[c.id], []⟩ [] stored (.start _ _) room
  have collects : subtree v p c = .ok w.order := by
    rw [subtree, lookup, run]
    rfl
  refine ⟨w.order, collects, walked.collected entered, fun more => ?_⟩
  rw [lookup, ← walk_deeper known c _ room (Nat.le_add_right _ more), run]
  rfl

theorem subtree_memory {v : Memory.View} {p : Partition} {c : Concept}
    (keyed : ∀ x c, v.contents.find? p x = some c → c.id = x)
    (stored : v.contents.find? p c.id = some c) :
    ∃ order, subtree v p c = .ok order ∧ Collected (v.contents.find? p) c.id order ∧
      ∀ more, (walk (ConceptStore.find? v p) (ConceptStore.extent v + 1 + more) c ⟨[c.id], []⟩).map
        (·.order) = .ok order :=
  subtree_collected (funext fun id => Memory.View.find?_eq v p id) keyed (fun _ => mem_storedIds)
    (unseen_lt_extent (Finset.Subset.refl _) _) stored

section Forest

variable {x y : ConceptId}

/-- In a forest a concept lists what it contains. -/
theorem lists_iff (forest : Forest f) :
    Lists f x y ↔ ∃ c, f y = some c ∧ c.container = some x := by
  constructor
  · rintro ⟨parent, there, child⟩
    obtain ⟨q, member, listed⟩ := Concept.mem_childIds.mp child
    obtain ⟨c, stored, outline⟩ :=
      outlines_eq_some_iff.mp ((forest.listed x parent there q member y).mp listed)
    exact ⟨c, stored, congrArg Outline.container outline⟩
  · rintro ⟨c, stored, container⟩
    obtain ⟨parent, q, there, fits⟩ := forest.container_stored stored container
    obtain ⟨member, target⟩ := ConceptType.containmentFor?_eq_some_iff.mp fits
    have outline : outlines f y = some ⟨q.target, some x⟩ := by
      rw [outlines, stored, target]
      exact congrArg some (congrArg (Outline.mk _) container)
    exact ⟨parent, there,
      Concept.mem_childIds.mpr ⟨q, member, (forest.listed x parent there q member y).mpr outline⟩⟩

/-- In a forest a concept leads to what is within it. -/
theorem leads_iff_within (forest : Forest f) : Leads f top x ↔ Within (outlines f) top x := by
  constructor
  · intro leads
    induction leads with
    | refl => exact .top
    | tail _ lists ih =>
      obtain ⟨c, stored, container⟩ := (lists_iff forest).mp lists
      exact .under (outlines_eq_some_iff.mpr ⟨c, stored, rfl⟩) container ih
  · intro within
    induction within with
    | top => exact .refl
    | under placed container _ ih =>
      obtain ⟨c, stored, rfl⟩ := outlines_eq_some_iff.mp placed
      exact ih.tail ((lists_iff forest).mpr ⟨c, stored, container⟩)

/-- What is within a stored concept is stored. -/
theorem stored_of_within (within : Within (outlines f) top x) (there : (f top).isSome = true) :
    (f x).isSome = true := by
  cases within with
  | top => exact there
  | under placed _ _ =>
    obtain ⟨c, stored, -⟩ := outlines_eq_some_iff.mp placed
    exact Option.isSome_of_eq_some stored

/-- The order in which a subtree is removed lists the concepts within it. -/
theorem subtree_ok {v : Memory.View} {p : Partition} {c : Concept}
    (forest : Forest (v.contents.find? p)) (stored : v.contents.find? p c.id = some c) :
    ∃ order, subtree v p c = .ok order ∧
      ∀ x, x ∈ order.map (·.1) ↔ Within (outlines (v.contents.find? p)) c.id x := by
  obtain ⟨order, run, collected, -⟩ := subtree_memory forest.keyed stored
  refine ⟨order, run, fun x => (collected.exact x).trans ?_⟩
  rw [leads_iff_within forest]
  exact and_iff_right_of_imp fun within => stored_of_within within (Option.isSome_of_eq_some stored)

end Forest

end ConceptLedger.Batch
