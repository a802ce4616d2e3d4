import ConceptLedger.Hook.Lifecycle
import ConceptLedger.Proofs.Concept.Containment

/-!
The properties that decide about the lifecycle of a setup. The changes that containment makes to a
concept leave them alone, and equal states agree in them.
-/

namespace ConceptLedger

namespace Lifecycle

/-- The properties that decide about the lifecycle of a setup. -/
def properties : List String :=
  [Property.iterationNumber, Property.sourceIterationSetup, Property.frozenOn, Property.isDeleted,
    Property.activeIterationSetup]

/-- None of them is a containment list of any type. -/
theorem containment_ne {t : ConceptType} {q : Containment} (declared : q ∈ t.containment)
    {name : String} (member : name ∈ properties) : q.name ≠ name := by
  have apart : ∀ q ∈ t.containment, ∀ name ∈ properties, q.name ≠ name := by
    cases t <;> decide
  exact apart q declared name member

/-- Two states in the same phase of the lifecycle. -/
def Same (c c' : Concept) : Prop := ∀ name ∈ properties, c'.property? name = c.property? name

namespace Same

variable {c c' : Concept}

theorem isFrozen (same : Same c c') : isFrozen c' = isFrozen c := by
  unfold Lifecycle.isFrozen
  rw [same _ (by decide)]

theorem isSoftDeleted (same : Same c c') : c'.isSoftDeleted = c.isSoftDeleted := by
  unfold Concept.isSoftDeleted
  rw [same _ (by decide)]

theorem active (same : Same c c') :
    c'.ref? Property.activeIterationSetup = c.ref? Property.activeIterationSetup := by
  unfold Concept.ref?
  rw [same _ (by decide)]

theorem detach (c : Concept) (child : ConceptId) : Same c (c.detach child) := fun _ member =>
  Concept.property?_detach_other fun _ declared => containment_ne declared member

theorem attach {child : Concept} {orderKey : Option Int64}
    (run : c.attach child orderKey = .ok c') : Same c c' := by
  obtain ⟨q, declared, -, value, -, rfl⟩ := Concept.attach_ok run
  exact fun _ member => Concept.property?_setProperty_ne c value (containment_ne declared member).symm

theorem stored {former : Concept} (run : Concept.withStoredChildren former c = .ok c') : Same c c' :=
  fun name member => (Concept.withStoredChildren_ok run).2.1 name fun _ declared =>
    containment_ne declared member

end Same

/-- Values that agree hold the same integer and the same reference. -/
theorem int?_of_agrees {a b : Option PropertyValue} (agree : PropertyValue.optionAgrees a b = true) :
    a.bind (·.int?) = b.bind (·.int?) ∧ a.bind (·.ref?) = b.bind (·.ref?) ∧
      a.bind (·.timestamp?) = b.bind (·.timestamp?) := by
  cases a with
  | none =>
    cases b with
    | none => exact ⟨rfl, rfl, rfl⟩
    | some y => cases agree
  | some x =>
    cases b with
    | none => cases agree
    | some y =>
      have agree : x.agrees y = true := agree
      cases x <;> cases y <;> simp_all [PropertyValue.agrees, PropertyValue.int?,
        PropertyValue.ref?, PropertyValue.timestamp?]

theorem findEntry_agree {l r : List (String × PropertyValue)} (keys : l.map (·.1) = r.map (·.1))
    (values : ((l.map (·.2)).zip (r.map (·.2))).all (fun p => p.1.agrees p.2) = true) (k : String) :
    PropertyValue.optionAgrees (SortedMap.findEntry k l) (SortedMap.findEntry k r) = true := by
  induction l generalizing r with
  | nil =>
    cases r with
    | nil => rfl
    | cons => cases keys
  | cons first rest ih =>
    cases r with
    | nil => cases keys
    | cons first' rest' =>
      obtain ⟨k', v⟩ := first
      obtain ⟨k'', v'⟩ := first'
      simp only [List.map_cons, List.cons.injEq] at keys
      obtain ⟨rfl, keys⟩ := keys
      simp only [List.map_cons, List.zip_cons_cons, List.all_cons, Bool.and_eq_true] at values
      unfold SortedMap.findEntry
      split
      · exact values.1
      · exact ih keys values.2

/-- Equal states agree in every property. -/
theorem optionAgrees_of_sameStateAs {c c' : Concept} (same : c.sameStateAs c' = true) (name : String) :
    PropertyValue.optionAgrees (c.property? name) (c'.property? name) = true := by
  unfold Concept.sameStateAs at same
  simp only [Bool.and_eq_true] at same
  obtain ⟨⟨-, agree⟩, -⟩ := same
  unfold Properties.agree at agree
  simp only [Bool.and_eq_true, decide_eq_true_eq] at agree
  exact findEntry_agree agree.1 agree.2 name

/-- Equal states are frozen alike. -/
theorem isFrozen_of_sameStateAs {c c' : Concept} (same : c.sameStateAs c' = true) :
    isFrozen c = isFrozen c' := by
  have here := (int?_of_agrees (optionAgrees_of_sameStateAs same Property.frozenOn)).2.2
  unfold isFrozen
  rw [here]

/-- What is marked as deleted stays the same only if it was marked before. -/
theorem marked_of_sameStateAs {c : Concept}
    (same : (c.setProperty Property.isDeleted (.bool true)).sameStateAs c = true) :
    c.isSoftDeleted = true := by
  have here := optionAgrees_of_sameStateAs same Property.isDeleted
  rw [Concept.property?_setProperty_self] at here
  unfold Concept.isSoftDeleted
  cases held : c.property? Property.isDeleted with
  | none =>
    rw [held] at here
    cases here
  | some value =>
    rw [held] at here
    obtain rfl : PropertyValue.bool true = value := by
      simpa [PropertyValue.optionAgrees, PropertyValue.agrees] using here
    rfl

end Lifecycle

end ConceptLedger
