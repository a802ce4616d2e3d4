import ConceptLedger.Proofs.Data.Int64
import ConceptLedger.Proofs.Hook.Standard
import ConceptLedger.Proofs.Lifecycle.Setups
import Mathlib.Data.List.Induction

/-!
What a new setup learns from its siblings. In a forest the list of its container names exactly the
setups that are stored in it, and the number and the source that it is assigned follow from them.
-/

namespace ConceptLedger

namespace IterationSetup

open Lifecycle Forest

/-- The property in which the setup of an engineering model lists its iteration setups. -/
def setupList : Containment := ⟨Property.iterationSetup, .iterationSetup, false⟩

theorem referenced_eq_members {parent : Concept} (complete : parent.Complete)
    (kind : parent.conceptType = .engineeringModelSetup) :
    ((parent.property? Property.iterationSetup).map (·.referenced)).getD [] =
      parent.members setupList := by
  have declared : setupList ∈ parent.conceptType.containment := by
    rw [kind]
    decide
  rcases complete.holdsList declared with ⟨-, ids, held⟩ | ⟨ordered, -⟩
  · have held : parent.property? Property.iterationSetup = some (.refList ids) := held
    simp only [held, Concept.members, Concept.entries, setupList, Option.map_some, Option.getD_some,
      PropertyValue.referenced, List.map_map, Function.comp_def, List.map_id']
  · cases ordered

/-- In a forest the siblings of a setup are the other setups that are stored in its container. -/
theorem siblings_ok {setting : HookSetting} {f : ConceptId → Option Concept}
    (lookup : setting.lookup setting.partition = fun id => .ok (f id)) (forest : Forest f)
    {c parent : Concept} (stored : f parent.id = some parent)
    (kind : parent.conceptType = .engineeringModelSetup) {prior : List Concept}
    (run : siblings c parent setting = .ok prior) (s : Concept) :
    s ∈ prior ↔ Member f parent.id s ∧ s.id ≠ c.id := by
  have declared : setupList ∈ parent.conceptType.containment := by
    rw [kind]
    decide
  unfold siblings HookSetting.lookupLocal at run
  dsimp only at run
  rw [referenced_eq_members (forest.complete _ _ stored) kind, lookup,
    mapM_eq_ok (g := f) fun _ _ => rfl] at run
  obtain rfl := Except.ok.inj run
  simp only [List.mem_filterMap, List.mem_map, List.mem_filter, id_eq, exists_exists_and_eq_and,
    forest.listed _ _ stored _ declared, outlines_eq_some_iff, decide_eq_true_eq]
  constructor
  · rintro ⟨x, ⟨⟨s', stored', outline⟩, other⟩, found⟩
    cases found.symm.trans stored'
    obtain rfl := forest.keyed _ _ found
    exact ⟨⟨found, congrArg Outline.conceptType outline, congrArg Outline.container outline⟩, other⟩
  · rintro ⟨member, other⟩
    refine ⟨s.id, ⟨⟨s, member.stored, ?_⟩, other⟩, member.stored⟩
    rw [Concept.outline, member.kind, member.container]
    rfl

/-- The siblings of a setup that is not stored are all the setups of its container. -/
theorem siblings_of_absent {setting : HookSetting} {f : ConceptId → Option Concept}
    (lookup : setting.lookup setting.partition = fun id => .ok (f id)) (forest : Forest f)
    {c parent : Concept} (absent : f c.id = none) (stored : f parent.id = some parent)
    (kind : parent.conceptType = .engineeringModelSetup) {prior : List Concept}
    (run : siblings c parent setting = .ok prior) (s : Concept) :
    s ∈ prior ↔ Member f parent.id s := by
  refine (siblings_ok lookup forest stored kind run s).trans (and_iff_left_of_imp fun member same => ?_)
  have found := member.stored
  rw [same, absent] at found
  cases found

/-- The next number is positive and greater than those of the siblings. -/
theorem nextNumber_ok {prior : List Concept} {number : Int64}
    (positive : ∀ s ∈ prior, 1 ≤ iterationNumber s) (run : nextNumber prior = .ok number) :
    1 ≤ number ∧ ∀ s ∈ prior, iterationNumber s < number := by
  unfold nextNumber at run
  cases last : (prior.map iterationNumber).max? with
  | none =>
    rw [last] at run
    cases run
    have none := List.map_eq_nil_iff.mp (List.max?_eq_none_iff.mp last)
    subst none
    exact ⟨by decide, fun s member => nomatch member⟩
  | some greatest =>
    obtain ⟨member, bound⟩ := List.max?_eq_some_iff.mp last
    rw [last] at run
    dsimp only [Option.getD_some] at run
    split at run
    · cases run
    · rename_i room
      cases run
      have above := Int64.lt_add_one room
      obtain ⟨s, inside, rfl⟩ := List.mem_map.mp member
      refine ⟨Int64.le_of_lt (Int64.lt_of_le_of_lt (positive s inside) above), fun s' inside' => ?_⟩
      exact Int64.lt_of_le_of_lt (bound _ (List.mem_map_of_mem inside')) above

theorem latest?_mem {setups : List Concept} {s : Concept} (found : latest? setups = some s) :
    s ∈ setups := by
  induction setups using List.reverseRecOn generalizing s with
  | nil => cases found
  | append_singleton earlier last ih =>
    unfold latest? at found ih
    rw [List.foldl_append, List.foldl_cons, List.foldl_nil] at found
    split at found
    · rename_i best newest
      split at found
      · cases found
        simp
      · cases found
        exact List.mem_append_left _ (ih newest)
    · cases found
      simp

/-- The latest setup is the one with the greatest number, if there is any. -/
theorem latest?_spec (setups : List Concept) :
    (latest? setups = none → setups = []) ∧
      ∀ s, latest? setups = some s → ∀ a ∈ setups, iterationNumber a ≤ iterationNumber s := by
  induction setups using List.reverseRecOn with
  | nil => exact ⟨fun _ => rfl, fun _ found => by cases found⟩
  | append_singleton earlier last ih =>
    unfold latest? at ih ⊢
    rw [List.foldl_append, List.foldl_cons, List.foldl_nil]
    cases newest : earlier.foldl _ none with
    | none =>
      obtain rfl := ih.1 newest
      refine ⟨fun none => (by cases none), fun s found a member => ?_⟩
      cases found
      rw [List.mem_singleton.mp member]
      exact Int64.le_refl _
    | some best =>
      have below := ih.2 best newest
      dsimp only
      split
      · rename_i above
        refine ⟨fun none => (by cases none), fun s found a member => ?_⟩
        cases found
        rcases List.mem_append.mp member with before | here
        · exact Int64.le_trans (below a before) above
        · rw [List.mem_singleton.mp here]
          exact Int64.le_refl _
      · rename_i notAbove
        refine ⟨fun none => (by cases none), fun s found a member => ?_⟩
        cases found
        rcases List.mem_append.mp member with before | here
        · exact below a before
        · rw [List.mem_singleton.mp here]
          exact Int64.le_of_lt (Int64.not_le.mp notAbove)

/-- The next number is one, or one above that of the latest setup. -/
theorem nextNumber_eq {prior : List Concept} {number : Int64}
    (run : nextNumber prior = .ok number) : (latest? prior = none ∧ number = 1) ∨
      ∃ s, latest? prior = some s ∧ iterationNumber s ≠ Int64.maxValue ∧
        number = iterationNumber s + 1 := by
  unfold nextNumber at run
  cases latest : latest? prior with
  | none =>
    obtain rfl := (latest?_spec prior).1 latest
    cases run
    exact .inl ⟨rfl, rfl⟩
  | some s =>
    have greatest : (prior.map iterationNumber).max? = some (iterationNumber s) := by
      refine List.max?_eq_some_iff.mpr ⟨List.mem_map_of_mem (latest?_mem latest), fun n member => ?_⟩
      obtain ⟨a, inside, rfl⟩ := List.mem_map.mp member
      exact (latest?_spec prior).2 s latest a inside
    rw [greatest] at run
    dsimp only [Option.getD_some] at run
    split at run
    · cases run
    · rename_i room
      cases run
      exact .inr ⟨s, rfl, room, rfl⟩

/-- What is assigned to a new setup. -/
theorem assigned_joins {f : ConceptId → Option Concept} {later : ConceptId → Prop} {e : ConceptId}
    {named : Concept} {prior : List Concept} {number : Int64} {r : UInt64}
    (members : ∀ s, Member f e s ↔ s ∈ prior) (positive : ∀ s, Member f e s → 1 ≤ iterationNumber s)
    (next : nextNumber prior = .ok number)
    (followed : ∀ s, Member f e s → isFrozen s = false → later s.id) :
    Setups.Joins f later e { assigned named number prior with revisionNumber := r } := by
  have numbered : iterationNumber (assigned named number prior) = number := by
    simp [iterationNumber, assigned, Concept.property?_setProperty, Property.iterationNumber,
      Property.isDeleted, Property.frozenOn, Property.sourceIterationSetup, PropertyValue.int?]
  have source : (assigned named number prior).ref? Property.sourceIterationSetup =
      (latest? prior).map (·.id) := by
    simp only [Concept.ref?, assigned, Concept.property?_setProperty_self, Option.bind_some, sourceOf]
    cases latest? prior <;> rfl
  obtain ⟨first, above⟩ := nextNumber_ok (fun s inside => positive s ((members s).mpr inside)) next
  refine ⟨?_, fun s member => ?_, ?_, ?_, fun t named' => ?_, followed⟩
  · exact numbered.symm ▸ first
  · exact numbered.symm ▸ above s ((members s).mp member)
  · show isFrozen (assigned named number prior) = false
    simp [isFrozen, assigned, Concept.property?_setProperty, Property.frozenOn,
      Property.sourceIterationSetup, PropertyValue.timestamp?]
  · show (assigned named number prior).isSoftDeleted = false
    simp [Concept.isSoftDeleted, assigned, Concept.property?_setProperty, Property.isDeleted,
      Property.frozenOn, Property.sourceIterationSetup, PropertyValue.bool?]
  · have named' : (assigned named number prior).ref? Property.sourceIterationSetup = some t := named'
    rw [source] at named'
    obtain ⟨s, newest, rfl⟩ := Option.map_eq_some_iff.mp named'
    exact ⟨s, (members s).mpr (latest?_mem newest), rfl⟩

end IterationSetup

end ConceptLedger
