import ConceptLedger.Proofs.Lifecycle.Cascades
import ConceptLedger.Proofs.Store.Queue

/-!
Setups and what they stand for name each other, across partitions. The face of a concept is what
such a tie depends on: its type, its container and the counterpart that it names. An operation that
does not update a root or an iteration changes no face; it adds one, or removes those of a branch.
-/

namespace ConceptLedger

open Lifecycle Forest

/-- The property in which a concept names its counterpart: a setup its model or its iteration, and
either of these its setup. -/
def ConceptType.linkName? : ConceptType → Option String
  | .engineeringModelSetup => some Property.engineeringModelIid
  | .iterationSetup => some Property.iterationIid
  | .engineeringModel => some Property.engineeringModelSetup
  | .iteration => some Property.iterationSetup
  | _ => none

/-- The counterpart that a concept names. -/
def Concept.link? (c : Concept) : Option ConceptId := c.conceptType.linkName?.bind c.ref?

/-- What ties a concept to others. -/
structure Face where
  conceptType : ConceptType
  container : Option ConceptId
  link : Option ConceptId

/-- The face of a concept. -/
def Concept.face (c : Concept) : Face := ⟨c.conceptType, c.container, c.link?⟩

/-- The type and the container in a face. -/
def Face.outline (u : Face) : Outline := ⟨u.conceptType, u.container⟩

/-- The faces of what is stored, partition by partition. -/
abbrev Faces := Partition → ConceptId → Option Face

/-- The faces of a stock. -/
def Stock.faces (f : Stock) : Faces := fun p x => (f p x).map Concept.face

/-- The outlines in one partition. -/
def Faces.outlines (F : Faces) (p : Partition) : ConceptId → Option Outline :=
  fun x => (F p x).map Face.outline

namespace Concept

variable {c c' : Concept}

theorem linkName?_ne {t : ConceptType} {name : String} (link : t.linkName? = some name)
    {q : Containment} (declared : q ∈ t.containment) : q.name ≠ name := by
  have apart : ∀ q ∈ t.containment, t.linkName? ≠ some q.name := by
    cases t <;> decide
  rintro rfl
  exact apart q declared link

theorem face_eq (outline : c'.outline = c.outline)
    (link : ∀ name, c.conceptType.linkName? = some name → c'.ref? name = c.ref? name) :
    c'.face = c.face := by
  have type : c'.conceptType = c.conceptType := congrArg Outline.conceptType outline
  have container : c'.container = c.container := congrArg Outline.container outline
  have same : c'.link? = c.link? := by
    unfold link?
    rw [type]
    cases named : c.conceptType.linkName? with
    | none => rfl
    | some name => exact link name named
  rw [face, face, type, container, same]

theorem face_of_link {t : ConceptType} {name : String} {y : ConceptId} (kind : c.conceptType = t)
    (link : t.linkName? = some name) (named : c.ref? name = some y) :
    c.face = ⟨t, c.container, some y⟩ := by
  rw [face, link?, kind, link, Option.bind_some, named]

theorem face_withoutChildren (c : Concept) : c.withoutChildren.face = c.face := by
  refine face_eq (outline_eq c.withoutChildren_conceptType c.withoutChildren_container) ?_
  intro name link
  rw [ref?, ref?, property?_withoutChildren_other fun q declared => linkName?_ne link declared]

end Concept

namespace Batch

variable {env : Setting} {p : Partition} {d d' : Draft} {x : ConceptId}

theorem faces_of_stored {f : Stock} {c : Concept} {q : Partition} (stored : f q x = some c) :
    f.faces q x = some c.face := congrArg (Option.map Concept.face) stored

theorem faces_eq_some_iff {f : Stock} {q : Partition} {u : Face} :
    f.faces q x = some u ↔ ∃ c, f q x = some c ∧ c.face = u := Option.map_eq_some_iff

theorem outlines_faces (f : Stock) (q : Partition) : f.faces.outlines q = Forest.outlines (f q) := by
  funext x
  unfold Faces.outlines Stock.faces Forest.outlines
  rw [Option.map_map]
  rfl

/-- A new concept other than a setup is stored with the face that it was submitted with. -/
theorem CreateRequest.face {c c' : Concept} {container : Option Concept} {before : HookOutcome}
    (standard : env.registry = Registry.standard)
    (request : CreateRequest env p d c container c' before)
    (model : c.conceptType ≠ .engineeringModelSetup) (iteration : c.conceptType ≠ .iterationSetup) :
    c'.face = c.face := by
  have type := c.withoutChildren_conceptType
  rcases request.hooked.standard_cases standard with ⟨kind, -⟩ | ⟨kind, -⟩ | ⟨-, -, rfl, -⟩
  · exact absurd (type.symm.trans kind) model
  · exact absurd (type.symm.trans kind) iteration
  · exact c.face_withoutChildren

/-- Updates leave the face of a setup as it is. -/
theorem UpdateRequest.face {c former c₁ c' : Concept} {container : Option Concept}
    {before : HookOutcome} (standard : env.registry = Registry.standard)
    (request : UpdateRequest env p d c former c₁ container c' before)
    (root : c.conceptType ≠ .engineeringModel) (iteration : c.conceptType ≠ .iteration) :
    c'.face = former.face := by
  have outline := request.outline standard
  have type : c'.conceptType = former.conceptType := congrArg Outline.conceptType outline
  obtain ⟨rfl, -, permitted, fixed⟩ := request.hooked.update_ok standard
  refine Concept.face_eq outline fun name link => ?_
  cases kind : former.conceptType with
  | engineeringModelSetup =>
    rw [kind] at link
    cases link
    exact (fixed (type.trans kind)).1
  | iterationSetup =>
    rw [kind] at link
    cases link
    exact (int?_of_agrees ((permitted (type.trans kind)).fixed _ (by decide))).2.1
  | engineeringModel => exact absurd (request.sameType.symm.trans kind) root
  | iteration => exact absurd (request.sameType.symm.trans kind) iteration
  | _ =>
    rw [kind] at link
    cases link

/-- Marking a concept as deleted leaves its face as it is. -/
theorem DeleteRequest.face {id : ConceptId} {t : ConceptType} {former c' : Concept}
    {container : Option Concept} {before : HookOutcome} (standard : env.registry = Registry.standard)
    (request : DeleteRequest env p d id t former container c' before) : c'.face = former.face := by
  obtain ⟨others, setup⟩ := request.hooked.delete_ok standard
  by_cases kind : former.conceptType = .iterationSetup
  · obtain ⟨-, ⟨-, -, rfl⟩ | ⟨-, -, rfl, -⟩ | ⟨-, -, rfl, -⟩⟩ := setup kind
    · rfl
    · rfl
    · refine Concept.face_eq rfl fun name link => ?_
      rw [kind] at link
      cases link
      rw [Concept.ref?, Concept.ref?, Concept.property?_setProperty_ne _ _ (by decide)]
  · rw [(others kind).1]

/-- A stored concept has the face that it had before, unless it was created. -/
theorem Origin.face {operation : Operation} {c : Concept} (standard : env.registry = Registry.standard)
    (ties : ∀ u, operation = .update u →
      u.conceptType ≠ .engineeringModel ∧ u.conceptType ≠ .iteration)
    (origin : Origin env p d x operation c) :
    (∃ former, d.find? p x = some former ∧ c.face = former.face) ∨
      ∃ u orderKey, operation = .create u orderKey ∧ u.id = x := by
  rcases origin.relisted_or_handled with ⟨former, same⟩ | own
  · refine .inl ⟨former, same.before, Concept.face_eq same.outline fun name link => ?_⟩
    rw [Concept.ref?, Concept.ref?, same.rest name fun q => Concept.linkName?_ne link]
  · cases own with
    | created here => exact .inr ⟨_, _, rfl, here⟩
    | updated here request =>
      obtain ⟨root, iteration⟩ := ties _ rfl
      have face := request.face standard root iteration
      exact .inl ⟨_, here ▸ request.stored, face⟩
    | marked request =>
      have face := request.face standard
      exact .inl ⟨_, request.stored, face⟩

/-- What an operation makes of the faces. -/
inductive Refaced (p : Partition) (F F' : Faces) : Operation → Prop
  | same {operation : Operation} (other : ∀ c orderKey, operation ≠ .create c orderKey)
      (same : F' = F) : Refaced p F F' operation
  | created {c : Concept} {orderKey : Option Int64} {u : Face} (fresh : F p c.id = none)
      (outline : u.outline = c.outline)
      (plain : ¬ (Operation.create c orderKey).CreatesSetup → u = c.face)
      (here : F' p c.id = some u) (rest : ∀ q x, (q = p → x ≠ c.id) → F' q x = F q x) :
      Refaced p F F' (.create c orderKey)
  | removed {id : ConceptId} {t : ConceptType} {u : Face} (there : F p id = some u)
      (type : u.conceptType = t)
      (gone : ∀ x, Outline.Within (F.outlines p) id x → F' p x = none)
      (rest : ∀ q x, (q = p → ¬ Outline.Within (F.outlines p) id x) → F' q x = F q x) :
      Refaced p F F' (.delete id t)

/-- A concept that stays, with the face that it had. -/
theorem faces_kept (stays : ∀ c, d.find? p x = some c → ∃ c', d'.find? p x = some c')
    (old : ∀ c', d'.find? p x = some c' → ∃ c, d.find? p x = some c ∧ c'.face = c.face) :
    Stock.faces d'.find? p x = Stock.faces d.find? p x := by
  cases after : d'.find? p x with
  | none =>
    cases before : d.find? p x with
    | none => rw [Stock.faces, Stock.faces, before, after]
    | some c =>
      obtain ⟨c', there⟩ := stays c before
      cases after.symm.trans there
  | some c' =>
    obtain ⟨c, before, face⟩ := old c' after
    rw [faces_of_stored after, faces_of_stored before, face]

/-- Every operation that does not update a root or an iteration keeps the faces, up to a new one or
those of a branch. -/
theorem Effect.refaced {operation : Operation} {cascades : List Cascade}
    (standard : env.registry = Registry.standard) (forest : Forest (d.find? p))
    (ties : ∀ u, operation = .update u →
      u.conceptType ≠ .engineeringModel ∧ u.conceptType ≠ .iteration)
    (effect : Effect env p d operation cascades d') :
    Refaced p (Stock.faces d.find?) (Stock.faces d'.find?) operation := by
  have elsewhere : ∀ {q}, q ≠ p → Stock.faces d'.find? q = Stock.faces d.find? q := by
    intro q other
    funext x
    rw [Stock.faces, Stock.faces, effect.elsewhere other]
  -- no concept has a new face unless it was created
  have old : ∀ {x}, (∀ u orderKey, operation = .create u orderKey → u.id ≠ x) →
      ∀ c', d'.find? p x = some c' → ∃ c, d.find? p x = some c ∧ c'.face = c.face := by
    intro x apart c' there
    rcases (effect.origin standard forest there).face standard ties with before |
      ⟨u, orderKey, new, here⟩
    · exact before
    · exact absurd here (apart u orderKey new)
  have stay : (∀ c orderKey, operation ≠ .create c orderKey) →
      (∀ x c, d.find? p x = some c → ∃ c', d'.find? p x = some c' ∧ c'.outline = c.outline) →
      Stock.faces d'.find? = Stock.faces d.find? := by
    intro other rest
    funext q x
    by_cases here : q = p
    · subst here
      exact faces_kept (fun c before => (rest x c before).imp fun _ => And.left)
        (old fun u orderKey new => absurd new (other u orderKey))
    · rw [elsewhere here]
  have fate := effect.fate standard forest
  cases effect with
  | update effect =>
    have other : ∀ {u : Concept} c orderKey, Operation.update u ≠ .create c orderKey :=
      fun _ _ same => nomatch same
    cases fate with
    | stay rest => exact .same other (stay other rest)
  | create effect =>
    cases effect with
    | skipped request skip => cases request.hooked.create_ok standard ▸ skip
    | @stored container _ c' _ _ _ _ request _ _ absent entered _ =>
      obtain ⟨id, outline, -⟩ := request.child standard
      have here := faces_of_stored (entered.stored absent (request.present forest)).1
      refine .created (u := c'.face) ?_ outline (fun plain => ?_) ?_ fun q x apart => ?_
      · rw [Stock.faces, request.fresh]
        rfl
      · exact request.face standard (fun kind => plain (.inl kind)) fun kind => plain (.inr kind)
      · rw [← id]
        exact here
      · by_cases here : q = p
        · subst here
          refine faces_kept (fun c before => ?_) (old fun u _ new => ?_)
          · cases fate with
            | stay rest => exact (rest x c before).imp fun _ => And.left
          · cases new
            exact (apart rfl).symm
        · rw [elsewhere here]
  | @delete id t _ _ effect =>
    have other : ∀ c orderKey, Operation.delete id t ≠ .create c orderKey :=
      fun _ _ same => nomatch same
    cases fate with
    | stay rest => exact .same other (stay other rest)
    | @fall _ _ former _ _ _ request _ gone rest =>
      refine .removed (faces_of_stored request.stored) request.sameType ?_ ?_
      · rw [outlines_faces]
        intro x within
        rw [Stock.faces, gone x within]
        rfl
      · rw [outlines_faces]
        intro q x apart
        by_cases here : q = p
        · subst here
          exact faces_kept (fun c before => (rest x c (apart rfl) before).imp fun _ => And.left)
            (old fun u orderKey new => absurd new (other u orderKey))
        · rw [elsewhere here]

end Batch

end ConceptLedger
