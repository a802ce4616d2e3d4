import ConceptLedger.Batch.Execute
import ConceptLedger.Proofs.Hook.Standard

/-!
With what failures the checks on single concepts end, and that entering, leaving and carrying over
children brings no times into a concept that were not there before.
-/

namespace ConceptLedger

/-- A failure that the rules of the ledger lead to: not an internal one, one that comes at some time,
and not yet one that names an operation of a batch. -/
structure Failure.Plain (f : Failure) : Prop where
  foreseen : f.kind ≠ .internal
  ends : f.kind ≠ .endless
  unnamed : f.index = none

theorem Fault.plain {f : Fault} (known : ∀ m, f ≠ .internal m) : f.failure.Plain := by
  cases f
  case internal m => exact absurd rfl (known m)
  all_goals exact ⟨by simp [failure], by simp [failure], rfl⟩

theorem Failure.overflow_plain : overflow.Plain := ⟨nofun, nofun, rfl⟩

/-- If a value cannot be computed, the failure is of a certain sort. -/
def Refuses {α : Type} (F : Failure → Prop) (x : Except Failure α) : Prop :=
  ∀ e, x = .error e → F e

namespace Refuses

variable {α β : Type} {F : Failure → Prop}

theorem ok {a : α} : Refuses F (.ok a) := fun _ impossible => nomatch impossible

theorem fail {f : Fault} (good : F f.failure) : Refuses F (fail f : Except Failure α) := by
  intro e refused
  cases refused
  exact good

theorem map {x : Except Failure α} {f : α → β} (refuses : Refuses F x) : Refuses F (x.map f) := by
  intro e refused
  cases x with
  | error e' =>
    cases refused
    exact refuses _ rfl
  | ok a => cases refused

theorem bind {x : Except Failure α} {f : α → Except Failure β} (first : Refuses F x)
    (later : ∀ a, x = .ok a → Refuses F (f a)) : Refuses F (x.bind f) := by
  intro e refused
  cases x with
  | error e' =>
    cases refused
    exact first _ rfl
  | ok a => exact later a rfl e refused

theorem foldlM {f : β → α → Except Failure β} (each : ∀ b a, Refuses F (f b a)) (l : List α)
    (b : β) : Refuses F (l.foldlM f b) := by
  induction l generalizing b with
  | nil => exact ok
  | cons a rest ih =>
    rw [List.foldlM_cons]
    exact (each b a).bind fun b' _ => ih b'

theorem forM {f : α → Except Failure Unit} (each : ∀ a, Refuses F (f a)) (l : List α) :
    Refuses F (l.forM f) := by
  induction l with
  | nil => exact ok
  | cons a rest ih =>
    show Refuses F ((f a).bind fun _ => rest.forM f)
    exact (each a).bind fun _ _ => ih

theorem mapM {f : α → Except Failure β} (each : ∀ a, Refuses F (f a)) (l : List α) :
    Refuses F (l.mapM f) := by
  induction l with
  | nil => exact ok
  | cons a rest ih =>
    rw [List.mapM_cons]
    exact (each a).bind fun b _ => ih.bind fun bs _ => ok

end Refuses

/-- A look-up that always answers, and only with good concepts. -/
def Serves {κ : Type} (P : Concept → Prop) (lookup : κ → Except Failure (Option Concept)) : Prop :=
  ∀ k, ∃ found, lookup k = .ok found ∧ ∀ c ∈ found, P c

theorem Serves.refuses {κ : Type} {P : Concept → Prop} {F : Failure → Prop}
    {lookup : κ → Except Failure (Option Concept)} (serves : Serves P lookup) (k : κ) :
    Refuses F (lookup k) := by
  obtain ⟨found, answered, -⟩ := serves k
  rw [answered]
  exact .ok

namespace Concept

/-- Every time in a property of the concept is one of certain times. -/
def Timely (T : Instant → Prop) (c : Concept) : Prop :=
  ∀ name t, c.property? name = some (.timestamp t) → T t

namespace Timely

variable {T : Instant → Prop} {c : Concept}

theorem setProperty (timely : c.Timely T) {name : String} {value : PropertyValue}
    (good : ∀ t, value = .timestamp t → T t) : (c.setProperty name value).Timely T := by
  intro other t found
  rw [property?_setProperty] at found
  split at found
  · exact good t (Option.some.inj found)
  · exact timely other t found

theorem setRef (timely : c.Timely T) {name : String} {id : ConceptId} :
    (c.setProperty name (.ref id)).Timely T := timely.setProperty fun _ other => nomatch other

theorem withoutChildren (timely : c.Timely T) : c.withoutChildren.Timely T := by
  unfold Concept.withoutChildren
  generalize c.conceptType.containment = l
  induction l generalizing c with
  | nil => exact timely
  | cons p rest ih =>
    refine ih (timely.setProperty fun t other => ?_)
    unfold emptyList at other
    split at other <;> cases other

theorem detach (timely : c.Timely T) (child : ConceptId) : (c.detach child).Timely T := by
  unfold Concept.detach
  generalize c.conceptType.containment = l
  induction l generalizing c with
  | nil => exact timely
  | cons p rest ih =>
    refine ih ?_
    intro name t found
    rw [property?_detachFrom] at found
    split at found
    · obtain ⟨value, stored, kept⟩ := Option.map_eq_some_iff.mp found
      unfold withoutChild at kept
      split at kept <;> cases kept
      exact timely name t stored
    · exact timely name t found

theorem attach {child extended : Concept} {orderKey : Option Int64} (timely : c.Timely T)
    (run : c.attach child orderKey = .ok extended) : extended.Timely T := by
  obtain ⟨p, -, -, value, listed, rfl⟩ := attach_ok run
  refine timely.setProperty fun t other => ?_
  subst other
  obtain ⟨-, -, same⟩ | ⟨-, _, -, -, same⟩ := extendedList_cases listed <;> cases same

theorem withStoredChildren {former c' : Concept} (timely : c.Timely T) (stored : former.Timely T)
    (run : Concept.withStoredChildren former c = .ok c') : c'.Timely T := by
  obtain ⟨-, others, lists⟩ := withStoredChildren_ok run
  intro name t found
  by_cases list : ∃ p ∈ c.conceptType.containment, p.name = name
  · obtain ⟨p, member, rfl⟩ := list
    rcases lists p member with ⟨-, kept⟩ | ⟨kept, -⟩
    · exact stored p.name t (kept ▸ found)
    · exact timely p.name t (kept ▸ found)
  · rw [others name fun p member same => list ⟨p, member, same⟩] at found
    exact timely name t found

end Timely

theorem checkShape_plain (c : Concept) : Refuses Failure.Plain c.checkShape := by
  unfold checkShape
  split
  · exact .fail (Fault.plain fun m => by simp)
  · exact .ok

theorem withStoredChildren_plain (former c : Concept) :
    Refuses Failure.Plain (withStoredChildren former c) := by
  refine .foldlM (fun c p => ?_) _ c
  unfold withStoredList
  split
  · split <;> exact .ok
  · split
    · exact .ok
    · exact .fail (Fault.plain fun m => by simp)

theorem attach_plain (container child : Concept) (orderKey : Option Int64) :
    Refuses Failure.Plain (container.attach child orderKey) := by
  unfold attach
  split
  · exact .fail (Fault.plain fun m => by simp)
  · refine .map ?_
    unfold extendedList
    dsimp only
    split
    · split
      · exact .fail (Fault.plain fun m => by simp)
      · split
        · exact .fail (Fault.plain fun m => by simp)
        · exact .ok
    · split
      · exact .fail (Fault.plain fun m => by simp)
      · exact .ok

end Concept

theorem Gate.authorize_plain (gate : Gate) (actor : Actor) (c : Concept) (kind : OperationKind)
    (p : Partition) (security : SecurityContext) :
    Refuses Failure.Plain (gate.authorize actor c kind p security) := by
  unfold Gate.authorize
  split
  · exact .ok
  · intro e refused
    cases refused
    exact ⟨by simp [Fault.failure], by simp [Fault.failure], rfl⟩

namespace Batch

theorem expectType_plain (stored : Concept) (t : ConceptType) :
    Refuses Failure.Plain (expectType stored t) := by
  unfold expectType
  split
  · exact .ok
  · exact .fail (Fault.plain fun m => by simp)

theorem expectContainer_plain (former c : Concept) :
    Refuses Failure.Plain (expectContainer former c) := by
  unfold expectContainer
  split
  · exact .ok
  · exact .fail (Fault.plain fun m => by simp)

section Lookups

variable {F : Failure → Prop} {lookup : ConceptId → Except Failure (Option Concept)}
  (looks : ∀ id, Refuses F (lookup id))

include looks

/-- Targets are missed in a plain way, unless a look-up fails. -/
theorem requireTargetsOf_refuses (plain : ∀ f, f.Plain → F f) (c : Concept) (former : Option Concept)
    (a : Association) : Refuses F (requireTargetsOf lookup c former a) := by
  unfold requireTargetsOf
  split
  · exact .ok
  · split
    · exact .ok
    · refine .forM (fun target => ?_) _
      refine (looks target).bind fun found _ => ?_
      cases found with
      | none => exact .fail (plain _ (Fault.plain fun m => by simp))
      | some t =>
        dsimp only
        split
        · exact .ok
        · exact .fail (plain _ (Fault.plain fun m => by simp))

/-- A walk fails only where a look-up does. -/
theorem walk_refuses (depth : Nat) (c : Concept) (w : Walk) : Refuses F (walk lookup depth c w) := by
  induction depth generalizing c w with
  | zero => exact .ok
  | succ depth ih =>
    refine .map (.foldlM (fun w child => ?_) _ w)
    unfold visit
    split
    · exact .ok
    · refine (looks child).bind fun found _ => ?_
      cases found with
      | none => exact .ok
      | some inner => exact ih inner _

end Lookups

end Batch

end ConceptLedger
