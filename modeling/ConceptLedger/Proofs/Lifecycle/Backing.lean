import ConceptLedger.Proofs.Lifecycle.Faces

/-!
What setups stand for. The setup of an engineering model stands for the root of the partition that
it names, and an iteration setup within it for an iteration in that partition. Their creations follow
on that of the setup, so while a batch is running they may still wait. No two setups stand for the
same, so that the removal of one of them takes nothing away from another.
-/

namespace ConceptLedger

open Batch

/-- The root of the model of a setup. -/
def Face.root (setup : ConceptId) : Face := ⟨.engineeringModel, none, some setup⟩

/-- The iteration of a setup, in a model. -/
def Face.iteration (model setup : ConceptId) : Face := ⟨.iteration, some model, some setup⟩

namespace Faces

variable {F F' : Faces} {p q : Partition} {e s x y model id : ConceptId} {l : Option ConceptId}
  {u : Face} {operation : Operation} {waiting queue more : List (Partition × Operation)}

/-- A setup of an engineering model, with what it names. -/
def Models (F : Faces) (p : Partition) (e : ConceptId) (l : Option ConceptId) : Prop :=
  ∃ k, F p e = some ⟨.engineeringModelSetup, k, l⟩

/-- An iteration setup in a container, with what it names. -/
def Iterates (F : Faces) (p : Partition) (e s : ConceptId) (l : Option ConceptId) : Prop :=
  F p s = some ⟨.iterationSetup, some e, l⟩

theorem models_of_stored {f : Stock} {c : Concept} (stored : f p e = some c)
    (kind : c.conceptType = .engineeringModelSetup)
    (named : c.ref? Property.engineeringModelIid = some model) : f.faces.Models p e (some model) := by
  refine ⟨c.container, ?_⟩
  rw [faces_of_stored stored, Concept.face_of_link kind rfl named]

theorem iterates_of_stored {f : Stock} {c : Concept} (stored : f p s = some c)
    (kind : c.conceptType = .iterationSetup) (container : c.container = some e)
    (named : c.ref? Property.iterationIid = some id) : f.faces.Iterates p e s (some id) := by
  rw [Iterates, faces_of_stored stored, Concept.face_of_link kind rfl named, container]

/-- A concept is in place or its creation waits. -/
def Due (F : Faces) (queue : List (Partition × Operation)) (q : Partition) (y : ConceptId) (u : Face) :
    Prop :=
  F q y = some u ∨ ∃ c orderKey, (q, .create c orderKey) ∈ queue ∧ c.id = y ∧ c.face = u

/-- Every setup names something that is in place or waits to be created, and no model is named by
two setups. -/
structure Backed (F : Faces) (queue : List (Partition × Operation)) : Prop where
  model : ∀ p e l, F.Models p e l → ∃ model, l = some model ∧
    F.Due queue (.model model) model (.root e)
  alone : ∀ p e p' e' model, F.Models p e (some model) → F.Models p' e' (some model) →
    p = p' ∧ e = e'
  iteration : ∀ p e model s l, F.Models p e (some model) → F.Iterates p e s l → ∃ id, l = some id ∧
    F.Due queue (.model model) id (.iteration model s)

/-- What a stored setup stands for. -/
inductive Needed (F : Faces) : Partition → ConceptId → Prop
  | model {p : Partition} {e model : ConceptId} (setup : F.Models p e (some model)) :
      Needed F (.model model) model
  | iteration {p : Partition} {e s model id : ConceptId} (owner : F.Models p e (some model))
      (setup : F.Iterates p e s (some id)) : Needed F (.model model) id

theorem Due.stored (due : F.Due [] q y u) : F q y = some u := by
  rcases due with there | ⟨c, orderKey, member, -⟩
  · exact there
  · cases member

/-- What is due stays so when an operation is executed that does not remove it. -/
theorem Due.step (due : F.Due ((p, operation) :: waiting) q y u) (refaced : Refaced p F F' operation)
    (model : u.conceptType ≠ .engineeringModelSetup) (iteration : u.conceptType ≠ .iterationSetup)
    (spared : ∀ id t v, operation = .delete id t → F p id = some v → v.conceptType = t → q = p →
      ¬ Outline.Within (F.outlines p) id y) : F'.Due (waiting ++ more) q y u := by
  rcases due with there | ⟨c, orderKey, member, rfl, rfl⟩
  · left
    rw [← there]
    cases refaced with
    | same _ same => rw [same]
    | created fresh _ _ _ rest =>
      refine rest q y ?_
      rintro rfl rfl
      cases fresh.symm.trans there
    | removed top type _ rest => exact rest q y (spared _ _ _ rfl top type)
  · rcases List.mem_cons.mp member with head | later
    · cases head
      cases refaced with
      | same other _ => exact absurd rfl (other c orderKey)
      | created _ _ plain here _ =>
        left
        rw [here, plain fun setup => setup.elim model iteration]
    · exact .inr ⟨c, orderKey, List.mem_append_left _ later, rfl, rfl⟩

/-- The setups after an operation that creates none were there before. -/
theorem setup_before (refaced : Refaced p F F' operation) (plain : ¬ operation.CreatesSetup)
    (kind : u.conceptType = .engineeringModelSetup ∨ u.conceptType = .iterationSetup)
    (there : F' q x = some u) : F q x = some u := by
  cases refaced with
  | same _ same => exact same ▸ there
  | @created c _ u' _ outline _ here rest =>
    by_cases new : q = p ∧ x = c.id
    · obtain ⟨rfl, rfl⟩ := new
      cases here.symm.trans there
      have type : u.conceptType = c.conceptType := congrArg Outline.conceptType outline
      rw [type] at kind
      exact absurd kind plain
    · rw [← rest q x fun same here => new ⟨same, here⟩]
      exact there
  | @removed id _ _ _ _ gone rest =>
    by_cases inside : q = p ∧ Outline.Within (F.outlines p) id x
    · obtain ⟨rfl, within⟩ := inside
      cases (gone x within).symm.trans there
    · rw [← rest q x fun same within => inside ⟨same, within⟩]
      exact there

/-- The setups after a change are among those before. -/
structure Fewer (F F' : Faces) : Prop where
  models : ∀ p e l, F'.Models p e l → F.Models p e l
  iterates : ∀ p e s l, F'.Iterates p e s l → F.Iterates p e s l

theorem fewer (refaced : Refaced p F F' operation) (plain : ¬ operation.CreatesSetup) :
    Fewer F F' where
  models _ _ _ setup := setup.imp fun _ there => setup_before refaced plain (.inl rfl) there
  iterates _ _ _ _ there := setup_before refaced plain (.inr rfl) there

/-- An operation that neither creates a setup nor removes what one stands for. -/
theorem Backed.step (backed : F.Backed ((p, operation) :: waiting)) (refaced : Refaced p F F' operation)
    (plain : ¬ operation.CreatesSetup)
    (spares : ∀ id t v, operation = .delete id t → F p id = some v → v.conceptType = t →
      ∀ y, F.Needed p y → ¬ Outline.Within (F.outlines p) id y) : F'.Backed (waiting ++ more) where
  model p' e l setup := by
    have before := (fewer refaced plain).models p' e l setup
    obtain ⟨model, rfl, due⟩ := backed.model p' e l before
    refine ⟨model, rfl, due.step refaced nofun nofun fun id t v deletes top type here => ?_⟩
    exact spares id t v deletes top type _ (here ▸ .model before)
  alone p e p' e' model setup setup' :=
    backed.alone p e p' e' model ((fewer refaced plain).models p e _ setup)
      ((fewer refaced plain).models p' e' _ setup')
  iteration p' e model s l owner setup := by
    have owner := (fewer refaced plain).models p' e _ owner
    have before := (fewer refaced plain).iterates p' e s l setup
    obtain ⟨id, rfl, due⟩ := backed.iteration p' e model s l owner before
    refine ⟨id, rfl, due.step refaced nofun nofun fun id t v deletes top type here => ?_⟩
    exact spares id t v deletes top type _ (here ▸ .iteration owner before)

/-- An operation on other types that waits alone creates nothing that is due. -/
theorem Backed.settle (backed : F.Backed [(p, operation)])
    (root : operation.conceptType ≠ .engineeringModel)
    (iteration : operation.conceptType ≠ .iteration) : F.Backed [] := by
  have settle : ∀ {q y u}, u.conceptType = .engineeringModel ∨ u.conceptType = .iteration →
      F.Due [(p, operation)] q y u → F.Due [] q y u := by
    intro q y u kind due
    rcases due with there | ⟨c, orderKey, member, rfl, rfl⟩
    · exact .inl there
    · cases List.mem_singleton.mp member
      exact (kind.elim root iteration).elim
  refine ⟨fun p e l setup => ?_, backed.alone, fun p e model s l owner setup => ?_⟩
  · exact (backed.model p e l setup).imp fun _ => And.imp id (settle (.inl rfl))
  · exact (backed.iteration p e model s l owner setup).imp fun _ => And.imp id (settle (.inr rfl))

/-- What is in place stays due, whatever waits. -/
theorem Backed.await (backed : F.Backed []) : F.Backed queue where
  model p e l setup := (backed.model p e l setup).imp fun _ => And.imp id fun due => .inl due.stored
  alone := backed.alone
  iteration p e model s l owner setup :=
    (backed.iteration p e model s l owner setup).imp fun _ => And.imp id fun due => .inl due.stored

/-- A root is within no other concept. -/
theorem eq_of_within_root (root : F q model = some (.root e))
    (within : Outline.Within (F.outlines q) id model) : id = model := by
  cases within with
  | top => rfl
  | under stored container =>
    rw [outlines, root] at stored
    cases stored
    cases container

/-- An iteration is within its root, besides itself. -/
theorem eq_or_eq_of_within_iteration (root : F q model = some (.root e))
    (iteration : F q x = some (.iteration model s))
    (within : Outline.Within (F.outlines q) id x) : id = x ∨ id = model := by
  cases within with
  | top => exact .inl rfl
  | under stored container inside =>
    rw [outlines, iteration] at stored
    cases stored
    cases container
    exact .inr (eq_of_within_root root inside)

theorem Backed.root (backed : F.Backed []) (setup : F.Models p e (some model)) :
    F (.model model) model = some (.root e) := by
  obtain ⟨_, ⟨⟩, due⟩ := backed.model p e _ setup
  exact due.stored

theorem Backed.inner (backed : F.Backed []) (owner : F.Models p e (some model))
    (setup : F.Iterates p e s (some x)) : F (.model model) x = some (.iteration model s) := by
  obtain ⟨_, ⟨⟩, due⟩ := backed.iteration p e model s _ owner setup
  exact due.stored

/-- The removal of a branch of another type takes nothing away that a setup stands for. -/
theorem Backed.spares (backed : F.Backed []) (there : F p id = some u)
    (root : u.conceptType ≠ .engineeringModel) (iteration : u.conceptType ≠ .iteration)
    (needed : F.Needed p y) : ¬ Outline.Within (F.outlines p) id y := by
  intro within
  cases needed with
  | model setup =>
    obtain rfl := eq_of_within_root (backed.root setup) within
    cases there.symm.trans (backed.root setup)
    exact root rfl
  | iteration owner setup =>
    rcases eq_or_eq_of_within_iteration (backed.root owner) (backed.inner owner setup) within with
      rfl | rfl
    · cases there.symm.trans (backed.inner owner setup)
      exact iteration rfl
    · cases there.symm.trans (backed.root owner)
      exact root rfl

/-- Whatever was stored stays when something is entered in a free place. -/
theorem stored_after (fresh : F p e = none) (rest : ∀ q x, (q = p → x ≠ e) → F' q x = F q x)
    (there : F q x = some u) : F' q x = some u := by
  rw [rest q x, there]
  rintro rfl rfl
  cases fresh.symm.trans there

/-- A new setup of an engineering model waits for its root, if its model is not there yet. -/
theorem Backed.founded {c : Concept} (backed : F.Backed []) (fresh : F p e = none)
    (new : F'.Models p e (some model))
    (rest : ∀ q x, (q = p → x ≠ e) → F' q x = F q x)
    (childless : ∀ x u, F p x = some u → u.container ≠ some e)
    (free : F' (.model model) model = none) (id : c.id = model) (face : c.face = .root e) :
    F'.Backed [(.model model, .create c none)] := by
  obtain ⟨k, here⟩ := new
  have stays : ∀ {q x u}, F q x = some u → F' q x = some u := stored_after fresh rest
  have models : ∀ {p' e' l}, F'.Models p' e' l → (p' = p ∧ e' = e ∧ l = some model) ∨ F.Models p' e' l := by
    intro p' e' l setup
    by_cases new : p' = p ∧ e' = e
    · obtain ⟨rfl, rfl⟩ := new
      obtain ⟨k', there⟩ := setup
      cases here.symm.trans there
      exact .inl ⟨rfl, rfl, rfl⟩
    · exact .inr (setup.imp fun k there => (rest p' e' fun a b => new ⟨a, b⟩).symm.trans there)
  -- a model that an older setup names has its root already
  have taken : ∀ {p' e'}, ¬ F.Models p' e' (some model) := fun old =>
    nomatch free.symm.trans (stays (backed.root old))
  refine ⟨fun p' e' l setup => ?_, fun p' e' p'' e'' model' setup setup' => ?_,
    fun p' e' model' s l owner setup => ?_⟩
  · rcases models setup with ⟨rfl, rfl, rfl⟩ | old
    · exact ⟨model, rfl, .inr ⟨c, none, List.mem_singleton_self _, id, face⟩⟩
    · obtain ⟨model', rfl, due⟩ := backed.model p' e' l old
      exact ⟨model', rfl, .inl (stays due.stored)⟩
  · rcases models setup with ⟨rfl, rfl, same⟩ | old <;>
      rcases models setup' with ⟨rfl, rfl, same'⟩ | old'
    · exact ⟨rfl, rfl⟩
    · cases same
      exact absurd old' taken
    · cases same'
      exact absurd old taken
    · exact backed.alone p' e' p'' e'' model' old old'
  · have before : F.Iterates p' e' s l := by
      rw [Iterates, ← rest p' s]
      · exact setup
      · rintro rfl rfl
        cases here.symm.trans setup
    rcases models owner with ⟨rfl, rfl, -⟩ | old
    · exact absurd rfl (childless s _ before)
    · obtain ⟨x, rfl, due⟩ := backed.iteration p' e' model' s l old before
      exact ⟨x, rfl, .inl (stays due.stored)⟩

/-- A new iteration setup waits for its iteration. -/
theorem Backed.begun (backed : F.Backed []) (fresh : F p s = none)
    (here : F' p s = some ⟨.iterationSetup, some e, some id⟩)
    (rest : ∀ q x, (q = p → x ≠ s) → F' q x = F q x) (owner : F'.Models p e (some model))
    (waits : ∃ c orderKey, (.model model, .create c orderKey) ∈ queue ∧ c.id = id ∧
      c.face = .iteration model s) : F'.Backed queue := by
  have stays : ∀ {q x u}, F q x = some u → F' q x = some u := stored_after fresh rest
  have models : ∀ {p' e' l}, F'.Models p' e' l → F.Models p' e' l := by
    intro p' e' l setup
    refine setup.imp fun k there => ?_
    rw [← rest p' e', there]
    rintro rfl rfl
    cases here.symm.trans there
  refine ⟨fun p' e' l setup => ?_, fun p' e' p'' e'' model' setup setup' => ?_,
    fun p' e' model' s' l owner' setup => ?_⟩
  · obtain ⟨model', rfl, due⟩ := backed.model p' e' l (models setup)
    exact ⟨model', rfl, .inl (stays due.stored)⟩
  · exact backed.alone p' e' p'' e'' model' (models setup) (models setup')
  · by_cases new : p' = p ∧ s' = s
    · obtain ⟨rfl, rfl⟩ := new
      cases here.symm.trans setup
      obtain ⟨k, there⟩ := owner
      obtain ⟨k', there'⟩ := owner'
      cases there.symm.trans there'
      exact ⟨id, rfl, .inr waits⟩
    · have before : F.Iterates p' e' s' l :=
        (rest p' s' fun a b => new ⟨a, b⟩).symm.trans setup
      obtain ⟨x, rfl, due⟩ := backed.iteration p' e' model' s' l (models owner') before
      exact ⟨x, rfl, .inl (stays due.stored)⟩

/-- When the setup of an engineering model is gone, nothing in its model is needed. -/
theorem Backed.closed (backed : F.Backed []) (fewer : Fewer F F') (setup : F.Models p e (some model))
    (gone : F' p e = none) : ¬ F'.Needed (.model model) y := by
  have none : ∀ {p' e'}, ¬ F'.Models p' e' (some model) := by
    intro p' e' other
    obtain ⟨rfl, rfl⟩ := backed.alone p e p' e' model setup (fewer.models _ _ _ other)
    obtain ⟨k, there⟩ := other
    cases gone.symm.trans there
  intro needed
  cases needed with
  | model other => exact none other
  | iteration owner _ => exact none owner

/-- When an iteration setup is gone, its iteration can be removed. -/
theorem Backed.ended (backed : F.Backed []) (backed' : F'.Backed []) (fewer : Fewer F F')
    (owner : F'.Models p e (some model)) (setup : F.Iterates p e s (some id)) (gone : F' p s = none)
    (needed : F'.Needed (.model model) y) :
    ¬ Outline.Within (F'.outlines (.model model)) id y := by
  have before := fewer.models _ _ _ owner
  have mine := backed.inner before setup
  have apart : id ≠ model := by
    rintro rfl
    cases mine.symm.trans (backed.root before)
  intro within
  cases needed with
  | model => exact apart (eq_of_within_root (backed'.root owner) within)
  | @iteration p' e' s' _ _ owner' setup' =>
    obtain ⟨rfl, rfl⟩ := backed'.alone p e p' e' model owner owner'
    rcases eq_or_eq_of_within_iteration (backed'.root owner) (backed'.inner owner setup') within with
      rfl | same
    · cases mine.symm.trans (backed.inner before (fewer.iterates _ _ _ _ setup'))
      cases gone.symm.trans setup'
    · exact apart same

end Faces

end ConceptLedger
