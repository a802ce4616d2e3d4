import ConceptLedger.Failure

/-!
Steps: computations that change a state and may fail. What a step did before it failed stays in
the state, so that a caller may keep it or go back.
-/

namespace ConceptLedger

theorem Except.map_ok {α β : Type} {f : α → β} {x : Except Failure α} {b : β}
    (run : x.map f = .ok b) : ∃ a, x = .ok a ∧ f a = b := by
  cases x with
  | error e => cases run
  | ok a => exact ⟨a, rfl, Except.ok.inj run⟩

theorem Except.bind_ok {α β : Type} {f : α → Except Failure β} {x : Except Failure α} {b : β}
    (run : x.bind f = .ok b) : ∃ a, x = .ok a ∧ f a = .ok b := by
  cases x with
  | error e => cases run
  | ok a => exact ⟨a, rfl, run⟩

/-- Computing a list of values succeeds when each of them can be computed. -/
theorem mapM_eq_ok {α β : Type} {f : α → Except Failure β} {g : α → β} {l : List α}
    (values : ∀ a ∈ l, f a = .ok (g a)) : l.mapM f = .ok (l.map g) := by
  induction l with
  | nil => rfl
  | cons a rest ih =>
    rw [List.mapM_cons, values a List.mem_cons_self,
      ih fun b later => values b (List.mem_cons_of_mem _ later)]
    rfl

/-- A list of values that was computed holds the value of each entry. -/
theorem eq_map_of_mapM {α β : Type} {f : α → Except Failure β} {g : α → β} {l : List α}
    {r : List β} (values : ∀ a ∈ l, ∀ b, f a = .ok b → b = g a) (run : l.mapM f = .ok r) :
    r = l.map g := by
  induction l generalizing r with
  | nil =>
    cases run
    rfl
  | cons a rest ih =>
    rw [List.mapM_cons] at run
    cases first : f a with
    | error e =>
      rw [first] at run
      cases run
    | ok b =>
      cases later : rest.mapM f with
      | error e =>
        rw [first, later] at run
        cases run
      | ok bs =>
        rw [first, later] at run
        cases run
        rw [values a List.mem_cons_self b first,
          ih (fun a' member => values a' (List.mem_cons_of_mem _ member)) later]
        rfl

/-- A computation that changes a state and may fail. -/
def Step (σ α : Type) : Type := σ → Except Failure α × σ

namespace Step

variable {σ α β : Type}

/-- The step that answers a value. -/
protected def pure (a : α) : Step σ α := fun s => (.ok a, s)

/-- One step after another; a failure of the first is the outcome. -/
protected def bind (x : Step σ α) (f : α → Step σ β) : Step σ β := fun s =>
  match x s with
  | (.ok a, s') => f a s'
  | (.error e, s') => (.error e, s')

instance : Monad (Step σ) where
  pure := Step.pure
  bind := Step.bind

/-- A step that fails. -/
def fail (f : Failure) : Step σ α := fun s => (.error f, s)

/-- A step that fails by a fault. -/
def fault (f : Fault) : Step σ α := fail f.failure

/-- A step that looks at the state without changing it. -/
def look (f : σ → Except Failure α) : Step σ α := fun s => (f s, s)

/-- A step whose outcome does not depend on the state. -/
def lift (x : Except Failure α) : Step σ α := look fun _ => x

/-- A step that answers something about the state. -/
def gets (f : σ → α) : Step σ α := fun s => (.ok (f s), s)

/-- A step that changes the state and does not fail. -/
def modify (f : σ → σ) : Step σ Unit := fun s => (.ok (), f s)

/-- A step on a part of the state. -/
def zoom {τ : Type} (get : τ → σ) (set : σ → τ → τ) (x : Step σ α) : Step τ α := fun t =>
  match x (get t) with
  | (r, s) => (r, set s t)

/-- A step with its failure changed. -/
def mapError (f : Failure → Failure) (x : Step σ α) : Step σ α := fun s =>
  match x s with
  | (.ok a, s') => (.ok a, s')
  | (.error e, s') => (.error (f e), s')

/-- One step for each entry of a list, in order, up to the first failure. -/
def forEach (f : α → Step σ Unit) : List α → Step σ Unit
  | [] => pure ()
  | a :: rest => do
    f a
    forEach f rest

theorem bind_of_ok {x : Step σ α} {f : α → Step σ β} {s s' : σ} {a : α}
    (run : x s = (.ok a, s')) : (x >>= f) s = f a s' := by
  show Step.bind x f s = f a s'
  simp [Step.bind, run]

theorem bind_of_error {x : Step σ α} {f : α → Step σ β} {s s' : σ} {e : Failure}
    (run : x s = (.error e, s')) : (x >>= f) s = (.error e, s') := by
  show Step.bind x f s = (.error e, s')
  simp [Step.bind, run]

/-- A sequence succeeds exactly when both of its steps do. -/
theorem bind_eq_ok_iff {x : Step σ α} {f : α → Step σ β} {s t : σ} {b : β} :
    (x >>= f) s = (.ok b, t) ↔ ∃ a s', x s = (.ok a, s') ∧ f a s' = (.ok b, t) := by
  show Step.bind x f s = (.ok b, t) ↔ _
  unfold Step.bind
  split
  · rename_i a s' run
    constructor
    · exact fun after => ⟨a, s', run, after⟩
    · rintro ⟨a', s'', first, after⟩
      cases run.symm.trans first
      exact after
  · rename_i e s' run
    simp [run]

theorem pure_eq_ok_iff {a b : α} {s t : σ} :
    (pure a : Step σ α) s = (.ok b, t) ↔ a = b ∧ s = t := by
  show Step.pure a s = (.ok b, t) ↔ _
  simp [Step.pure]

theorem look_eq_ok_iff {f : σ → Except Failure α} {s t : σ} {a : α} :
    look f s = (.ok a, t) ↔ f s = .ok a ∧ s = t := by
  simp [look]

theorem lift_eq_ok_iff {x : Except Failure α} {s t : σ} {a : α} :
    lift x s = (.ok a, t) ↔ x = .ok a ∧ s = t := look_eq_ok_iff

/-- A look that succeeds leaves the state to what comes next. -/
theorem look_bind_eq_ok_iff {x : σ → Except Failure α} {f : α → Step σ β} {s t : σ} {b : β} :
    (look x >>= f) s = (.ok b, t) ↔ ∃ a, x s = .ok a ∧ f a s = (.ok b, t) := by
  rw [bind_eq_ok_iff]
  constructor
  · rintro ⟨a, s', looked, after⟩
    obtain ⟨found, rfl⟩ := look_eq_ok_iff.mp looked
    exact ⟨a, found, after⟩
  · rintro ⟨a, found, after⟩
    exact ⟨a, s, look_eq_ok_iff.mpr ⟨found, rfl⟩, after⟩

theorem lift_bind_eq_ok_iff {x : Except Failure α} {f : α → Step σ β} {s t : σ} {b : β} :
    (lift x >>= f) s = (.ok b, t) ↔ ∃ a, x = .ok a ∧ f a s = (.ok b, t) := look_bind_eq_ok_iff

theorem gets_eq_ok_iff {f : σ → α} {s t : σ} {a : α} :
    gets f s = (.ok a, t) ↔ f s = a ∧ s = t := by
  simp [gets]

theorem modify_eq_ok_iff {f : σ → σ} {s t : σ} {u : Unit} :
    modify f s = (.ok u, t) ↔ f s = t := by
  simp [modify]

theorem fail_ne_ok {f : Failure} {s t : σ} {a : α} : fail f s ≠ (.ok a, t) := by
  simp [fail]

theorem fault_ne_ok {f : Fault} {s t : σ} {a : α} : fault f s ≠ (.ok a, t) := fail_ne_ok

theorem zoom_eq_ok_iff {τ : Type} {get : τ → σ} {set : σ → τ → τ} {x : Step σ α} {s t : τ} {a : α} :
    zoom get set x s = (.ok a, t) ↔ ∃ v, x (get s) = (.ok a, v) ∧ set v s = t := by
  simp only [zoom, Prod.mk.injEq]
  constructor
  · rintro ⟨result, state⟩
    exact ⟨(x (get s)).2, Prod.ext result rfl, state⟩
  · rintro ⟨v, run, state⟩
    rw [run]
    exact ⟨rfl, state⟩

theorem mapError_eq_ok_iff {f : Failure → Failure} {x : Step σ α} {s t : σ} {a : α} :
    mapError f x s = (.ok a, t) ↔ x s = (.ok a, t) := by
  unfold mapError
  split
  · rename_i b s' run
    rw [run]
  · rename_i e s' run
    simp [run]

end Step

end ConceptLedger
