import ConceptLedger.Proofs.Hook.Standard

/-!
What the standard registry answers on a draft: which updates and deletions of setups it lets
through, and that it never asks for the deletion of an iteration setup.
-/

namespace ConceptLedger

/-- An operation that does not delete an iteration setup. -/
def Operation.SparesSetups : Operation → Prop
  | .delete _ t => t ≠ .iterationSetup
  | _ => True

/-- An operation that creates a setup of either kind. -/
def Operation.CreatesSetup : Operation → Prop
  | .create c _ => c.conceptType = .engineeringModelSetup ∨ c.conceptType = .iterationSetup
  | _ => False

namespace Batch

open Step Lifecycle

variable {env : Setting} {p : Partition} {d : Draft} {security : SecurityContext}
  {occasion : Occasion} {former c c' : Concept} {container : Option Concept}
  {outcome : HookOutcome}

/-- Before a creation the hooks ask for nothing, and never to skip it. -/
theorem Hooked.create_ok (standard : env.registry = Registry.standard)
    (hooked : Hooked env p d security .beforeCreate c container c' outcome) : outcome = {} := by
  rcases hooked.standard_cases standard with ⟨-, s, t, o, -, run, -, answer⟩ |
    ⟨-, s, t, o, -, run, -, answer⟩ | ⟨-, -, -, rfl⟩
  · exact answer.2.trans (EngineeringModelSetup.beforeCreate_ok run).1
  · exact answer.2.trans (IterationSetup.beforeCreate_ok run).1
  · rfl

/-- Before an update nothing is changed; setups are updated only as it is permitted. -/
theorem Hooked.update_ok (standard : env.registry = Registry.standard)
    (hooked : Hooked env p d security (.beforeUpdate former) c container c' outcome) :
    c' = c ∧ outcome = {} ∧
      (c.conceptType = .iterationSetup → IterationSetup.Permitted former c container) ∧
      (c.conceptType = .engineeringModelSetup →
        c.ref? Property.engineeringModelIid = former.ref? Property.engineeringModelIid ∧
        (c.ref? Property.activeIterationSetup = former.ref? Property.activeIterationSetup ∨
          ∀ id selected, c.ref? Property.activeIterationSetup = some id →
            d.find? p id = some selected → isFrozen selected = false)) := by
  rcases hooked.standard_cases standard with ⟨model, s, t, o, rfl, run, -, answer⟩ |
    ⟨iteration, s, t, o, rfl, run, -, answer⟩ | ⟨model, iteration, rfl, rfl⟩
  · obtain ⟨rfl, rfl⟩ := answer
    obtain ⟨checked, rfl⟩ := Hook.check_ok run
    obtain ⟨rfl, fixed, chosen⟩ := EngineeringModelSetup.beforeUpdate_ok checked
    refine ⟨rfl, rfl, fun kind => absurd (model.symm.trans kind) (by decide), fun _ => ⟨fixed, ?_⟩⟩
    refine chosen.imp id fun thawed id selected named stored => thawed id selected named ?_
    show Except.ok (d.find? p id) = _
    rw [stored]
  · obtain ⟨rfl, rfl⟩ := answer
    obtain ⟨checked, rfl⟩ := Hook.check_ok run
    obtain ⟨rfl, permitted⟩ := IterationSetup.beforeUpdate_ok checked
    exact ⟨rfl, rfl, fun _ => permitted, fun kind => absurd (iteration.symm.trans kind) (by decide)⟩
  · exact ⟨rfl, rfl, fun kind => absurd kind iteration, fun kind => absurd kind model⟩

/-- Before a deletion only frozen setups are changed, and the selected one is refused. -/
theorem Hooked.delete_ok (standard : env.registry = Registry.standard)
    (hooked : Hooked env p d security (.beforeDelete former) c container c' outcome) :
    (c.conceptType ≠ .iterationSetup → c' = c ∧ outcome = {}) ∧
      (c.conceptType = .iterationSetup → isCurrent c.id container = false ∧
        ((isFrozen c = false ∧ outcome = {} ∧ c' = c) ∨
          (isFrozen c = true ∧ outcome = { directive := .skip } ∧ c' = c ∧ c.isSoftDeleted = true) ∨
          (isFrozen c = true ∧ outcome = { directive := .convertToUpdate } ∧
            c' = c.setProperty Property.isDeleted (.bool true) ∧ c.isSoftDeleted = false))) := by
  rcases hooked.standard_cases standard with ⟨model, s, t, o, rfl, run, -, answer⟩ |
    ⟨iteration, s, t, o, rfl, run, -, answer⟩ | ⟨-, iteration, rfl, rfl⟩
  · obtain ⟨rfl, rfl⟩ := answer
    obtain ⟨rfl, rfl⟩ := pure_eq_ok_iff.mp run
    exact ⟨fun _ => ⟨rfl, rfl⟩, fun kind => absurd (model.symm.trans kind) (by decide)⟩
  · obtain ⟨rfl, rfl⟩ := answer
    exact ⟨fun other => absurd iteration other, fun _ => IterationSetup.beforeDelete_ok run⟩
  · exact ⟨fun _ => ⟨rfl, rfl⟩, fun kind => absurd kind iteration⟩

/-- The cascades of the rules of engineering model setups create roots of models and delete them. -/
theorem spares_of_engineeringModelSetup {setting : HookSetting} {s t : HookState} {o : HookOutcome}
    (run : EngineeringModelSetup.hook occasion setting s = (.ok o, t)) :
    ∀ x ∈ o.cascades, x.operation.SparesSetups := by
  intro x member
  cases occasion with
  | beforeCreate =>
    obtain ⟨rfl, -⟩ := EngineeringModelSetup.beforeCreate_ok run
    cases member
  | afterCreate =>
    obtain ⟨model, -, created⟩ := EngineeringModelSetup.afterCreate_ok (Hook.check_ok run).1
    rw [created] at member
    obtain rfl := List.mem_singleton.mp member
    trivial
  | beforeUpdate former =>
    obtain ⟨rfl, -⟩ := EngineeringModelSetup.beforeUpdate_ok (Hook.check_ok run).1
    cases member
  | afterUpdate former | beforeDelete former =>
    obtain ⟨rfl, -⟩ := pure_eq_ok_iff.mp run
    cases member
  | afterDelete former =>
    rcases EngineeringModelSetup.afterDelete_ok (lift_eq_ok_iff.mp run).1 with none |
      ⟨model, -, deletes⟩
    · cases none ▸ member
    · obtain rfl := List.mem_singleton.mp (deletes ▸ member)
      exact fun kind => nomatch kind

/-- The cascades of the rules of iteration setups update setups, create the contents of iterations
and delete iterations. -/
theorem spares_of_iterationSetup {setting : HookSetting} {s t : HookState} {o : HookOutcome}
    (run : IterationSetup.hook occasion setting s = (.ok o, t)) :
    ∀ x ∈ o.cascades, x.operation.SparesSetups := by
  intro x member
  cases occasion with
  | beforeCreate =>
    obtain ⟨rfl, -⟩ := IterationSetup.beforeCreate_ok run
    cases member
  | afterCreate =>
    obtain ⟨parent, prior, model, id, previous, contents, begins⟩ := IterationSetup.afterCreate_ok run
    rw [begins.caused] at member
    rcases List.mem_append.mp member with updates | creation
    · rcases List.mem_cons.mp updates with rfl | freezing
      · trivial
      · obtain ⟨s', -, rfl⟩ := List.mem_map.mp freezing
        trivial
    · obtain ⟨c, orderKey, rfl⟩ := begins.creates x creation
      trivial
  | beforeUpdate former =>
    obtain ⟨rfl, -⟩ := IterationSetup.beforeUpdate_ok (Hook.check_ok run).1
    cases member
  | afterUpdate former =>
    obtain ⟨rfl, -⟩ := pure_eq_ok_iff.mp run
    cases member
  | beforeDelete former =>
    obtain ⟨-, ⟨-, rfl, -⟩ | ⟨-, rfl, -⟩ | ⟨-, rfl, -⟩⟩ := IterationSetup.beforeDelete_ok run <;>
      cases member
  | afterDelete former =>
    rcases IterationSetup.afterDelete_ok (lift_eq_ok_iff.mp run).1 with none |
      ⟨-, _, _, _, -, -, -, deletes⟩
    · cases none ▸ member
    · obtain rfl := List.mem_singleton.mp (deletes ▸ member)
      exact fun kind => nomatch kind

/-- No rule asks for the deletion of an iteration setup. -/
theorem Hooked.spares (standard : env.registry = Registry.standard)
    (hooked : Hooked env p d security occasion c container c' outcome) :
    ∀ x ∈ outcome.cascades, x.operation.SparesSetups := by
  rcases hooked.standard_cases standard with ⟨-, s, t, o, -, run, cascades, -⟩ |
    ⟨-, s, t, o, -, run, cascades, -⟩ | ⟨-, -, -, rfl⟩
  · rw [cascades]
    exact spares_of_engineeringModelSetup run
  · rw [cascades]
    exact spares_of_iterationSetup run
  · exact fun x member => nomatch member

end Batch

end ConceptLedger
