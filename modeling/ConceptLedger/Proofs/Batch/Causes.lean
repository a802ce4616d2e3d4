import ConceptLedger.Proofs.Batch.Effect

/-!
What an operation causes. The hooks of a type answer one after the other, in the order in which they
were registered, and an operation asks them before its change and, once something is stored, after
it. Its cascades stand in this order too, whatever the hooks do and on every store.
-/

namespace ConceptLedger

namespace Hook

open Step

/-- Hooks that are asked in turn, each about what the one before it left, and that all answer. -/
inductive Answers (occasion : Occasion) (setting : HookSetting) :
    List Hook → HookState → List HookOutcome → HookState → Prop
  | done {s : HookState} : Answers occasion setting [] s [] s
  | next {hook : Hook} {rest : List Hook} {s t u : HookState} {answer : HookOutcome}
      {answers : List HookOutcome}
      (first : hook.confined occasion setting s = (.ok answer, t))
      (later : Answers occasion setting rest t answers u) :
      Answers occasion setting (hook :: rest) s (answer :: answers) u

variable {occasion : Occasion} {setting : HookSetting} {outcome : HookOutcome} {s t : HookState}

end Hook

namespace Batch

open Step

variable {σ : Type} [ConceptStore σ]

/-- What the hooks are told in a state of a batch. -/
def hookSetting (env : Setting) (p : Partition) (s : State σ) (security : SecurityContext)
    (container : Option Concept) : HookSetting :=
  { partition := p, actor := env.actor, time := ConceptStore.time s.view, security, container
    lookup := ConceptStore.find? s.view, extent := ConceptStore.extent s.view }

/-- The occasions before and after the change of an operation. -/
inductive Around : Operation → Occasion → Occasion → Prop
  | create {c : Concept} {orderKey : Option Int64} :
      Around (.create c orderKey) .beforeCreate .afterCreate
  | update {c former : Concept} : Around (.update c) (.beforeUpdate former) (.afterUpdate former)
  | delete {id : ConceptId} {t : ConceptType} {former : Concept} :
      Around (.delete id t) (.beforeDelete former) (.afterDelete former)

variable {env : Setting} {p : Partition} {s t u : State σ}

theorem find_state {id : ConceptId} {found : Option Concept}
    (run : find p id s = (.ok found, t)) : s = t := (look_eq_ok_iff.mp run).2

theorem containerFor_state {c : Concept} {container : Option Concept}
    (run : containerFor p c s = (.ok container, t)) : s = t := by
  unfold containerFor at run
  cases root : c.conceptType.isRoot <;> cases named : c.container <;> rw [root, named] at run
  case true.none => exact (pure_eq_ok_iff.mp run).2
  case true.some id => exact absurd run fault_ne_ok
  case false.none => exact absurd run fault_ne_ok
  case false.some id =>
    obtain ⟨found, _, looked, run⟩ := bind_eq_ok_iff.mp run
    obtain rfl := find_state looked
    cases found with
    | none => exact absurd run fault_ne_ok
    | some parent =>
      dsimp only at run
      split at run
      · exact (pure_eq_ok_iff.mp run).2
      · exact absurd run fault_ne_ok

end Batch

end ConceptLedger
