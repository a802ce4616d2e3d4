import ConceptLedger.Step

/-!
Running two steps side by side. Two steps are alike when from related states they end in related
states, with one answer for both or with failures that match. A sequence of steps that are alike is
alike, so that a program over some primitive steps need only be compared primitive by primitive.
Taken with itself, a step shows in this way which failures it can have. Where the comparison is not
strict, the second step may also fail alone, and nothing is said about the first one then.
-/

namespace ConceptLedger.Step

variable {σ τ α β : Type}

/-- Two outcomes that match: the same answer, which is a good one, or failures that match. -/
inductive Matched (R : σ → τ → Prop) (E : Failure → Failure → Prop) (Q : α → Prop) :
    Except Failure α × σ → Except Failure α × τ → (strict : Bool := true) → Prop
  | ok {a : α} {s : σ} {t : τ} {strict : Bool} (good : Q a) (states : R s t) :
    Matched R E Q (.ok a, s) (.ok a, t) strict
  | error {e f : Failure} {s : σ} {t : τ} {strict : Bool} (failures : E e f) (states : R s t) :
    Matched R E Q (.error e, s) (.error f, t) strict
  | alone {f : Failure} {outcome : Except Failure α × σ} {t : τ} :
    Matched R E Q outcome (.error f, t) false

/-- Two steps that go from related states to matching outcomes. -/
def Alike (R : σ → τ → Prop) (E : Failure → Failure → Prop) (Q : α → Prop) (x : Step σ α)
    (y : Step τ α) (strict : Bool := true) : Prop :=
  ∀ s t, R s t → Matched R E Q (x s) (y t) strict

namespace Matched

variable {R : σ → τ → Prop} {E : Failure → Failure → Prop} {Q : α → Prop}
  {a : Except Failure α × σ} {b : Except Failure α × τ} {strict : Bool}

theorem of_ok {r : Except Failure α} {a : α} {s : σ} {t : τ} (good : Q a) (states : R s t)
    (answered : r = .ok a) : Matched R E Q (.ok a, s) (r, t) strict := by
  rw [answered]
  exact .ok good states

theorem imp {R' : σ → τ → Prop} {E' : Failure → Failure → Prop} {Q' : α → Prop}
    (outcomes : Matched R E Q a b strict) (states : ∀ s t, R s t → R' s t)
    (failures : ∀ e f, E e f → E' e f) (answers : ∀ a, Q a → Q' a) : Matched R' E' Q' a b strict := by
  cases outcomes with
  | ok good related => exact .ok (answers _ good) (states _ _ related)
  | error matching related => exact .error (failures _ _ matching) (states _ _ related)
  | alone => exact .alone

theorem bind {Q' : β → Prop} {x : Step σ α} {y : Step τ α} {f : α → Step σ β} {g : α → Step τ β}
    {s : σ} {t : τ} (first : Matched R E Q (x s) (y t) strict)
    (later : ∀ a s' t', Q a → R s' t' → Matched R E Q' (f a s') (g a t') strict) :
    Matched R E Q' ((x >>= f) s) ((y >>= g) t) strict := by
  generalize left : x s = outcome at first
  generalize right : y t = outcome' at first
  cases first with
  | ok good states =>
    rw [bind_of_ok left, bind_of_ok right]
    exact later _ _ _ good states
  | error failures states =>
    rw [bind_of_error left, bind_of_error right]
    exact .error failures states
  | alone =>
    rw [bind_of_error right]
    exact .alone

end Matched

namespace Alike

variable {R : σ → τ → Prop} {E : Failure → Failure → Prop} {Q : α → Prop} {Q' : β → Prop}
  {strict : Bool}

theorem bind {x : Step σ α} {y : Step τ α} {f : α → Step σ β} {g : α → Step τ β}
    (first : Alike R E Q x y strict) (later : ∀ a, Q a → Alike R E Q' (f a) (g a) strict) :
    Alike R E Q' (x >>= f) (y >>= g) strict := by
  intro s t related
  exact (first s t related).bind fun a _ _ good states => later a good _ _ states

theorem pure {a : α} (good : Q a) : Alike R E Q (pure a) (pure a) strict :=
  fun _ _ related => .ok good related

theorem fail {e : Failure} (matching : E e e) : Alike R E Q (fail e) (fail e) strict :=
  fun _ _ related => .error matching related

theorem look {f : σ → Except Failure α} {g : τ → Except Failure α}
    (same : ∀ s t, R s t → f s = g t ∧ (∀ a, f s = .ok a → Q a) ∧ ∀ e, f s = .error e → E e e) :
    Alike R E Q (look f) (look g) strict := by
  intro s t related
  obtain ⟨equal, good, matching⟩ := same s t related
  show Matched R E Q (f s, s) (g t, t) strict
  rw [← equal]
  cases outcome : f s with
  | ok a => exact .ok (good a outcome) related
  | error e => exact .error (matching e outcome) related

theorem lift {x : Except Failure α} (good : ∀ a, x = .ok a → Q a)
    (matching : ∀ e, x = .error e → E e e) : Alike R E Q (lift x) (lift x) strict :=
  look fun _ _ _ => ⟨rfl, good, matching⟩

theorem gets {f : σ → α} {g : τ → α} (same : ∀ s t, R s t → f s = g t ∧ Q (f s)) :
    Alike R E Q (gets f) (gets g) strict := by
  intro s t related
  obtain ⟨equal, good⟩ := same s t related
  show Matched R E Q (.ok (f s), s) (.ok (g t), t) strict
  rw [← equal]
  exact .ok good related

theorem modify {f : σ → σ} {g : τ → τ} (keeps : ∀ s t, R s t → R (f s) (g t)) :
    Alike R E (fun _ => True) (modify f) (modify g) strict :=
  fun s t related => .ok trivial (keeps s t related)

theorem mapError {x : Step σ α} {y : Step τ α} {f : Failure → Failure}
    {E' : Failure → Failure → Prop} (alike : Alike R E Q x y strict)
    (failures : ∀ e e', E e e' → E' (f e) (f e')) :
    Alike R E' Q (mapError f x) (mapError f y) strict := by
  intro s t related
  have outcomes := alike s t related
  unfold Step.mapError
  generalize x s = outcome at outcomes
  generalize y t = outcome' at outcomes
  cases outcomes with
  | ok good states => exact .ok good states
  | error matching states => exact .error (failures _ _ matching) states
  | alone => exact .alone

theorem forEach {γ : Type} {f : γ → Step σ Unit} {g : γ → Step τ Unit} {l : List γ}
    (each : ∀ c ∈ l, Alike R E (fun _ => True) (f c) (g c) strict) :
    Alike R E (fun _ => True) (forEach f l) (forEach g l) strict := by
  induction l with
  | nil => exact pure trivial
  | cons c rest ih =>
    exact (each c List.mem_cons_self).bind fun _ _ =>
      ih fun c' later => each c' (List.mem_cons_of_mem _ later)

end Alike

end ConceptLedger.Step
