import ConceptLedger.Proofs.Containment.Integrity
import ConceptLedger.Proofs.Lifecycle.Hooked

/-!
Where concepts come from and what becomes of them. Every concept that is stored after an operation
was there before, was created by it, or is a stored one that was changed in one of four ways. A
concept that was there before stays, with its type and its container, unless it is in a branch that
was removed.
-/

namespace ConceptLedger.Batch

open Forest

variable {env : Setting} {p : Partition} {d d' : Draft} {x : ConceptId}

/-- What an operation makes of the concept that it is about. -/
inductive Handled (env : Setting) (p : Partition) (d : Draft) (x : ConceptId) :
    Operation → Concept → Prop
  | created {c c' : Concept} {container : Option Concept} {orderKey : Option Int64}
      {outcome : HookOutcome} {r : UInt64} (here : c.id = x)
      (request : CreateRequest env p d c container c' outcome) :
      Handled env p d x (.create c orderKey) { c' with revisionNumber := r }
  | updated {c former c₁ c' : Concept} {container : Option Concept} {outcome : HookOutcome}
      {r : UInt64} (here : c.id = x) (request : UpdateRequest env p d c former c₁ container c' outcome)
      (targets : d.Targets p c' (some former)) :
      Handled env p d x (.update c) { c' with revisionNumber := r }
  | marked {t : ConceptType} {former c' : Concept} {container : Option Concept}
      {outcome : HookOutcome} {r : UInt64}
      (request : DeleteRequest env p d x t former container c' outcome)
      (convert : outcome.directive = .convertToUpdate) :
      Handled env p d x (.delete x t) { c' with revisionNumber := r }

/-- Where a concept that is stored after an operation comes from. -/
inductive Origin (env : Setting) (p : Partition) (d : Draft) (x : ConceptId) :
    Operation → Concept → Prop
  | kept {operation : Operation} {c : Concept} (before : d.find? p x = some c) :
      Origin env p d x operation c
  | handled {operation : Operation} {c : Concept} (own : Handled env p d x operation c) :
      Origin env p d x operation c
  | entered {c c' parent extended : Concept} {orderKey : Option Int64} {outcome : HookOutcome}
      {r : UInt64} (before : d.find? p x = some parent)
      (request : CreateRequest env p d c (some parent) c' outcome)
      (attached : parent.attach { c' with revisionNumber := r } orderKey = .ok extended) :
      Origin env p d x (.create c orderKey) { extended with revisionNumber := r }
  | left {id : ConceptId} {t : ConceptType} {parent : Concept} {r : UInt64}
      (before : d.find? p x = some parent) :
      Origin env p d x (.delete id t) { parent.detach id with revisionNumber := r }

theorem UpdateRequest.id {c former c₁ c' : Concept} {container : Option Concept}
    {outcome : HookOutcome} (standard : env.registry = Registry.standard)
    (request : UpdateRequest env p d c former c₁ container c' outcome) : c'.id = c.id := by
  have given := (Concept.bare_eq_iff.mp (Concept.withStoredChildren_ok request.children).1).1
  exact (Concept.bare_eq_iff.mp (request.hooked.kept standard).bare).1.trans given

theorem DeleteRequest.id {id : ConceptId} {t : ConceptType} {former c' : Concept}
    {container : Option Concept} {outcome : HookOutcome} (standard : env.registry = Registry.standard)
    (forest : Forest (d.find? p)) (request : DeleteRequest env p d id t former container c' outcome) :
    c'.id = id :=
  (Concept.bare_eq_iff.mp (request.hooked.kept standard).bare).1.trans
    (forest.keyed _ _ request.stored)

/-- Whatever is stored after an operation has an origin. -/
theorem Effect.origin {operation : Operation} {cascades : List Cascade} {c : Concept}
    (standard : env.registry = Registry.standard) (forest : Forest (d.find? p))
    (effect : Effect env p d operation cascades d') (stored : d'.find? p x = some c) :
    Origin env p d x operation c := by
  cases effect with
  | create effect =>
    cases effect with
    | skipped => exact .kept stored
    | stored request _ _ absent entered _ =>
      have id := (request.child standard).1
      cases entered with
      | root =>
        rw [find?_put_same, find?_allot_eq] at stored
        rcases place_eq_some_iff.mp stored with ⟨rfl, rfl⟩ | ⟨-, before⟩
        · exact .handled (.created id.symm request)
        · exact .kept before
      | @under parent extended attached _ =>
        obtain ⟨-, ⟨y, named, there⟩, -⟩ := request.housed
        obtain ⟨q, -, -, value, -, rfl⟩ := Concept.attach_ok attached
        rw [find?_put_same, find?_put_same, find?_allot_eq] at stored
        rcases place_place_cases stored with ⟨rfl, rfl⟩ | ⟨rfl, rfl⟩ | ⟨-, -, before⟩
        · obtain rfl := forest.keyed _ _ there
          exact .entered there request attached
        · exact .handled (.created id.symm request)
        · exact .kept before
  | update effect =>
    cases effect with
    | skipped | unchanged => exact .kept stored
    | stored request targets =>
      rw [find?_put_same, find?_allot_eq] at stored
      rcases place_eq_some_iff.mp stored with ⟨rfl, rfl⟩ | ⟨-, before⟩
      · exact .handled (.updated (request.id standard).symm request targets)
      · exact .kept before
  | delete effect =>
    cases effect with
    | skipped | kept => exact .kept stored
    | marked request convert =>
      rw [find?_put_same, find?_allot_eq] at stored
      rcases place_eq_some_iff.mp stored with ⟨same, rfl⟩ | ⟨-, before⟩
      · have id := request.id standard forest
        obtain rfl : x = _ := same.trans id
        exact .handled (.marked request convert)
      · exact .kept before
    | removed request proceed _ listed removed left _ =>
      obtain rfl := forest.keyed _ _ request.stored
      have cut := left.cutOff forest request.stored request.within
        (removed.cut forest request.stored listed)
      generalize d'.find? p = f at cut stored
      cases cut with
      | root => exact .kept (cut_eq_some_iff.mp stored).2
      | under _ there _ =>
        rcases place_eq_some_iff.mp stored with ⟨rfl, rfl⟩ | ⟨-, before⟩
        · rw [← Concept.detach_id] at there
          exact .left there
        · exact .kept (cut_eq_some_iff.mp before).2

theorem UpdateRequest.outline {c former c₁ c' : Concept} {container : Option Concept}
    {outcome : HookOutcome} (standard : env.registry = Registry.standard)
    (request : UpdateRequest env p d c former c₁ container c' outcome) :
    c'.outline = former.outline := by
  obtain ⟨-, type, -, held, -⟩ :=
    Concept.bare_eq_iff.mp (Concept.withStoredChildren_ok request.children).1
  obtain ⟨-, type', -, held', -⟩ := Concept.bare_eq_iff.mp (request.hooked.kept standard).bare
  exact Concept.outline_eq (type'.trans (type.trans request.sameType.symm))
    (held'.trans (held.trans request.sameContainer.symm))

theorem DeleteRequest.outline {id : ConceptId} {t : ConceptType} {former c' : Concept}
    {container : Option Concept} {outcome : HookOutcome} (standard : env.registry = Registry.standard)
    (request : DeleteRequest env p d id t former container c' outcome) :
    c'.outline = former.outline := by
  obtain ⟨-, type, -, held, -⟩ := Concept.bare_eq_iff.mp (request.hooked.kept standard).bare
  exact Concept.outline_eq type held

/-- A concept that an operation is not about differs from what was stored at most in its revision and
its containment lists. -/
structure Relisted (d : Draft) (p : Partition) (x : ConceptId) (former c : Concept) : Prop where
  before : d.find? p x = some former
  outline : c.outline = former.outline
  rest : ∀ name, (∀ q ∈ former.conceptType.containment, q.name ≠ name) →
    c.property? name = former.property? name

theorem Origin.relisted_or_handled {operation : Operation} {c : Concept}
    (origin : Origin env p d x operation c) :
    (∃ former, Relisted d p x former c) ∨ Handled env p d x operation c := by
  cases origin with
  | kept before => exact .inl ⟨c, before, rfl, fun _ _ => rfl⟩
  | handled own => exact .inr own
  | @entered _ _ parent _ _ _ _ before _ attached =>
    obtain ⟨q, declared, -, value, -, rfl⟩ := Concept.attach_ok attached
    exact .inl ⟨parent, before, rfl, fun name apart =>
      Concept.property?_setProperty_ne parent value (apart q declared).symm⟩
  | @left id _ parent _ before =>
    refine .inl ⟨parent, before, ?_, fun name apart => Concept.property?_detach_other apart⟩
    exact Concept.outline_eq (parent.detach_conceptType id) (parent.detach_container id)

/-- A concept has the type and the container that it had before or was created with. -/
theorem Origin.outline {operation : Operation} {c : Concept} (standard : env.registry = Registry.standard)
    (origin : Origin env p d x operation c) :
    (∃ former, d.find? p x = some former ∧ c.outline = former.outline) ∨
      ∃ u orderKey, operation = .create u orderKey ∧ u.id = x ∧ c.outline = u.outline := by
  rcases origin.relisted_or_handled with ⟨former, same⟩ | own
  · exact .inl ⟨former, same.before, same.outline⟩
  · cases own with
    | created here request =>
      obtain ⟨-, outline, -⟩ := request.child standard
      exact .inr ⟨_, _, rfl, here, outline⟩
    | updated here request =>
      have outline := request.outline standard
      exact .inl ⟨_, here ▸ request.stored, outline⟩
    | marked request =>
      have outline := request.outline standard
      exact .inl ⟨_, request.stored, outline⟩

/-- What becomes of the stored concepts: all stay, or a branch is removed and the others stay. -/
inductive Fate (env : Setting) (p : Partition) (d d' : Draft) : Operation → Prop
  | stay {operation : Operation}
      (rest : ∀ x c, d.find? p x = some c → ∃ c', d'.find? p x = some c' ∧ c'.outline = c.outline) :
      Fate env p d d' operation
  | fall {id : ConceptId} {t : ConceptType} {former c' : Concept} {container : Option Concept}
      {outcome : HookOutcome} (request : DeleteRequest env p d id t former container c' outcome)
      (proceed : outcome.directive = .proceed)
      (gone : ∀ x, Outline.Within (outlines (d.find? p)) id x → d'.find? p x = none)
      (rest : ∀ x c, ¬ Outline.Within (outlines (d.find? p)) id x → d.find? p x = some c →
        ∃ c', d'.find? p x = some c' ∧ c'.outline = c.outline) :
      Fate env p d d' (.delete id t)

/-- A state that is put in place of one with the same outline leaves all concepts in place. -/
theorem stays_placed {f : ConceptId → Option Concept} {c former : Concept} {r : UInt64}
    (before : f c.id = some former) (same : c.outline = former.outline) :
    ∀ x u, f x = some u →
      ∃ u', Forest.place f { c with revisionNumber := r } x = some u' ∧ u'.outline = u.outline := by
  intro x u there
  by_cases here : x = c.id
  · subst here
    cases before.symm.trans there
    exact ⟨{ c with revisionNumber := r }, place_eq_some_iff.mpr (.inl ⟨rfl, rfl⟩), same⟩
  · exact ⟨u, place_eq_some_iff.mpr (.inr ⟨here, there⟩), rfl⟩

theorem CutOff.gone {f g : ConceptId → Option Concept} {top : Concept} {r : UInt64}
    (cut : CutOff f top r g) (within : Outline.Within (outlines f) top.id x) : g x = none := by
  cases cut with
  | root => exact if_pos within
  | @under parent _ _ outside =>
    have other : x ≠ (parent.detach top.id).id := by
      rintro rfl
      exact outside (parent.detach_id top.id ▸ within)
    exact (if_neg other).trans (if_pos within)

theorem CutOff.rest {f g : ConceptId → Option Concept} {top c : Concept} {r : UInt64}
    (cut : CutOff f top r g) (apart : ¬ Outline.Within (outlines f) top.id x) (there : f x = some c) :
    ∃ c', g x = some c' ∧ c'.outline = c.outline := by
  have kept := cut_eq_some_iff.mpr ⟨apart, there⟩
  cases cut with
  | root => exact ⟨c, kept, rfl⟩
  | @under parent _ stored outside =>
    have before : Forest.cut f top.id (parent.detach top.id).id = some parent := by
      rw [Concept.detach_id]
      exact cut_eq_some_iff.mpr ⟨outside, stored⟩
    exact stays_placed (c := parent.detach top.id) before
      (Concept.outline_eq (parent.detach_conceptType top.id) (parent.detach_container top.id)) x c kept

/-- Every operation lets all stored concepts stay or removes a branch. -/
theorem Effect.fate {operation : Operation} {cascades : List Cascade}
    (standard : env.registry = Registry.standard) (forest : Forest (d.find? p))
    (effect : Effect env p d operation cascades d') : Fate env p d d' operation := by
  cases effect with
  | create effect =>
    cases effect with
    | skipped => exact .stay fun x c there => ⟨c, there, rfl⟩
    | @stored _ _ c' _ _ _ _ request _ _ absent entered _ =>
      refine .stay fun x c there => ?_
      have kept : Forest.place (d.find? p) { c' with revisionNumber := d.revision p } x = some c := by
        refine place_eq_some_iff.mpr (.inr ⟨?_, there⟩)
        rintro rfl
        cases absent.symm.trans there
      cases entered with
      | root =>
        rw [find?_put_same, find?_allot_eq]
        exact ⟨c, kept, rfl⟩
      | @under parent extended attached present =>
        obtain ⟨q, -, -, value, -, rfl⟩ := Concept.attach_ok attached
        obtain ⟨-, ⟨y, named, before⟩, -⟩ := request.housed
        obtain rfl := forest.keyed _ _ before
        rw [find?_put_same, find?_put_same, find?_allot_eq]
        have other : parent.id ≠ c'.id := by
          intro same
          rw [same] at before
          cases absent.symm.trans before
        -- the new concept is put in place first and the container after it
        have stays : Forest.place (d.find? p) { c' with revisionNumber := d.revision p }
            (parent.setProperty q.name value).id = some parent :=
          place_eq_some_iff.mpr (.inr ⟨other, before⟩)
        exact stays_placed stays rfl x c kept
  | update effect =>
    cases effect with
    | skipped | unchanged => exact .stay fun x c there => ⟨c, there, rfl⟩
    | stored request =>
      refine .stay ?_
      rw [find?_put_same, find?_allot_eq]
      exact stays_placed (by rw [request.id standard]; exact request.stored) (request.outline standard)
  | delete effect =>
    cases effect with
    | skipped | kept => exact .stay fun x c there => ⟨c, there, rfl⟩
    | marked request =>
      refine .stay ?_
      rw [find?_put_same, find?_allot_eq]
      exact stays_placed (by rw [request.id standard forest]; exact request.stored)
        (request.outline standard)
    | @removed former _ _ _ _ _ _ _ _ _ request proceed _ listed removed left _ =>
      obtain rfl := forest.keyed _ _ request.stored
      have cut := left.cutOff forest request.stored request.within
        (removed.cut forest request.stored listed)
      exact .fall request proceed (fun x => cut.gone) fun x c => cut.rest

end ConceptLedger.Batch
