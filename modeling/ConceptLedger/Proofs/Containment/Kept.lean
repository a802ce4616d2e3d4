import ConceptLedger.Proofs.Concept.Containment
import ConceptLedger.Proofs.Hook.Standard

/-!
What the rules of the standard registry never touch: the identity of a concept, its container and
its containment lists.
-/

namespace ConceptLedger

namespace Concept

/-- The second concept differs from the first at most in properties that are no containment lists,
and has the right shape if the first has. -/
structure Kept (c c' : Concept) : Prop where
  bare : c'.bare = c.bare
  lists : ∀ q ∈ c.conceptType.containment, c'.property? q.name = c.property? q.name
  shape : c.checkShape = .ok () → c'.checkShape = .ok ()

namespace Kept

theorem refl (c : Concept) : c.Kept c := ⟨rfl, fun _ _ => rfl, fun shaped => shaped⟩

theorem conceptType {c c' : Concept} (kept : c.Kept c') : c'.conceptType = c.conceptType :=
  (bare_eq_iff.mp kept.bare).2.1

theorem trans {c c' c'' : Concept} (first : c.Kept c') (later : c'.Kept c'') : c.Kept c'' where
  bare := later.bare.trans first.bare
  lists q member := (later.lists q (first.conceptType ▸ member)).trans (first.lists q member)
  shape shaped := later.shape (first.shape shaped)

theorem setProperty (c : Concept) {name : String} {value : PropertyValue}
    (apart : ∀ q ∈ c.conceptType.containment, q.name ≠ name)
    (fits : ∀ a ∈ c.conceptType.associations, a.name = name →
      associationComplaint? (some value) = none) : c.Kept (c.setProperty name value) where
  bare := rfl
  lists q member := property?_setProperty_ne c value (apart q member)
  shape shaped := by
    obtain ⟨lists, references⟩ := checkShape_ok_iff.mp shaped
    refine checkShape_ok_iff.mpr ⟨fun q member => ?_, fun a member => ?_⟩
    · rw [property?_setProperty_ne c value (apart q member)]
      exact lists q member
    · rw [property?_setProperty]
      split
      · rename_i here
        exact fits a member here
      · exact references a member

end Kept

end Concept

theorem Concept.Named.kept {c named : Concept} {name : String} (run : c.Named named name)
    (apart : ∀ q ∈ c.conceptType.containment, q.name ≠ name) : c.Kept named := by
  rcases run with rfl | ⟨id, rfl⟩
  · exact .refl _
  · exact .setProperty c apart fun _ _ _ => rfl

theorem EngineeringModelSetup.kept {c named : Concept} (kind : c.conceptType = .engineeringModelSetup)
    (run : c.Named named Property.engineeringModelIid) :
    c.Kept (named.setProperty Property.activeIterationSetup .null) := by
  have first : c.Kept named := run.kept (by rw [kind]; decide)
  refine first.trans (.setProperty named ?_ fun _ _ _ => rfl)
  rw [first.conceptType, kind]
  decide

theorem IterationSetup.kept {c named : Concept} {number : Int64} {prior : List Concept}
    (kind : c.conceptType = .iterationSetup) (run : c.Named named Property.iterationIid) :
    c.Kept (IterationSetup.assigned named number prior) := by
  have first : c.Kept named := run.kept (by rw [kind]; decide)
  have type : named.conceptType = .iterationSetup := first.conceptType.trans kind
  -- setups contain nothing, and their one association gets a reference or nothing
  have step : ∀ (x : Concept) (name : String) (value : PropertyValue),
      x.conceptType = .iterationSetup →
      (Property.sourceIterationSetup = name → Concept.associationComplaint? (some value) = none) →
      x.Kept (x.setProperty name value) := by
    intro x name value kind fits
    refine .setProperty x (by rw [kind]; exact fun q member => nomatch member) ?_
    rw [kind]
    intro a member same
    obtain rfl := List.mem_singleton.mp member
    exact fits same
  have source : Concept.associationComplaint? (some (IterationSetup.sourceOf prior)) = none := by
    unfold IterationSetup.sourceOf
    cases IterationSetup.latest? prior <;> rfl
  refine first.trans (.trans (.trans (.trans (step named _ (.int number) type ?_)
    (step _ _ (.bool false) type ?_)) (step _ _ .null type fun _ => rfl))
    (step _ _ _ type fun _ => source))
  · exact fun same => absurd same (by decide)
  · decide

namespace Batch

open Step

variable {env : Setting} {p : Partition} {d : Draft} {security : SecurityContext}
  {occasion : Occasion} {c c' : Concept} {container : Option Concept} {outcome : HookOutcome}

/-- The standard registry keeps what belongs to containment. -/
theorem Hooked.kept (standard : env.registry = Registry.standard)
    (hooked : Hooked env p d security occasion c container c' outcome) : c.Kept c' := by
  rcases hooked.standard_cases standard with
    ⟨model, s, t, o, rfl, run, -, answer⟩ | ⟨iteration, s, t, o, rfl, run, -, answer⟩ | ⟨-, -, rfl, -⟩
  · cases occasion with
    | beforeCreate =>
      obtain ⟨rfl, -⟩ := answer
      obtain ⟨-, named, naming, result⟩ := EngineeringModelSetup.beforeCreate_ok run
      rw [result]
      exact EngineeringModelSetup.kept model naming
    | beforeUpdate former =>
      obtain ⟨rfl, -⟩ := answer
      obtain ⟨-, rfl⟩ := Hook.check_ok run
      exact .refl _
    | beforeDelete former =>
      obtain ⟨rfl, -⟩ := answer
      obtain ⟨-, rfl⟩ := pure_eq_ok_iff.mp run
      exact .refl _
    | afterCreate | afterUpdate | afterDelete =>
      obtain rfl : c' = s.concept := answer
      exact .refl _
  · cases occasion with
    | beforeCreate =>
      obtain ⟨rfl, -⟩ := answer
      obtain ⟨-, _, prior, number, named, -, -, -, naming, result⟩ :=
        IterationSetup.beforeCreate_ok run
      rw [result]
      exact IterationSetup.kept iteration naming
    | beforeUpdate former =>
      obtain ⟨rfl, -⟩ := answer
      obtain ⟨-, rfl⟩ := Hook.check_ok run
      exact .refl _
    | beforeDelete former =>
      obtain ⟨rfl, -⟩ := answer
      obtain ⟨-, ⟨-, -, same⟩ | ⟨-, -, same, -⟩ | ⟨-, -, marked, -⟩⟩ :=
        IterationSetup.beforeDelete_ok run
      · rw [same]
        exact .refl _
      · rw [same]
        exact .refl _
      · rw [marked]
        refine .setProperty _ ?_ ?_ <;> rw [iteration] <;> decide
    | afterCreate | afterUpdate | afterDelete =>
      obtain rfl : c' = s.concept := answer
      exact .refl _
  · exact .refl _

end Batch

end ConceptLedger
