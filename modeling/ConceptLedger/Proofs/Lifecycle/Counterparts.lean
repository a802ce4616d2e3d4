import ConceptLedger.Proofs.Lifecycle.Backing
import ConceptLedger.Proofs.Lifecycle.Iterations

/-!
The upkeep of what setups stand for. Every operation of a batch that does not itself target a root or
an iteration keeps the setups backed, together with its cascades. A creation that waits for an
identifier that is taken cannot succeed: then the batch is bound to fail, and nothing is claimed of
the drafts on the way there.
-/

namespace ConceptLedger

open Batch Lifecycle Forest IterationSetup

/-- An operation that removes nothing, causes nothing and leaves roots and iterations as they are. -/
def Operation.Calm : Operation → Prop
  | .create c orderKey => ¬ (Operation.create c orderKey).CreatesSetup
  | .update c => c.conceptType ≠ .engineeringModel ∧ c.conceptType ≠ .iteration
  | .delete _ _ => False

theorem Operation.Calm.plain {operation : Operation} (calm : operation.Calm) :
    ¬ operation.CreatesSetup := by
  cases operation with
  | create => exact calm
  | update => exact id
  | delete => exact calm.elim

theorem Operation.Calm.ties {operation : Operation} (calm : operation.Calm) :
    ∀ u, operation = .update u → u.conceptType ≠ .engineeringModel ∧ u.conceptType ≠ .iteration := by
  rintro u rfl
  exact calm

namespace Faces

/-- A stored setup of an engineering model names a model. -/
theorem Backed.names_model {f : Stock} {p : Partition} {x : ConceptId} {e : Concept}
    (backed : f.faces.Backed []) (stored : f p x = some e)
    (kind : e.conceptType = .engineeringModelSetup) :
    ∃ model, e.ref? Property.engineeringModelIid = some model ∧ f.faces.Models p x (some model) := by
  have link : e.link? = e.ref? Property.engineeringModelIid := by
    rw [Concept.link?, kind]
    rfl
  have setup : f.faces.Models p x e.link? :=
    ⟨e.container, by rw [faces_of_stored stored, Concept.face, kind]⟩
  obtain ⟨model, named, -⟩ := backed.model p x _ setup
  exact ⟨model, link ▸ named, named ▸ setup⟩

/-- A stored iteration setup of a model names an iteration. -/
theorem Backed.names_iteration {f : Stock} {p : Partition} {x model : ConceptId} {c : Concept}
    (backed : f.faces.Backed []) (owner : f.faces.Models p x (some model))
    (member : Member (f p) x c) :
    ∃ id, c.ref? Property.iterationIid = some id ∧ f.faces.Iterates p x c.id (some id) := by
  have link : c.link? = c.ref? Property.iterationIid := by
    rw [Concept.link?, member.kind]
    rfl
  have setup : f.faces.Iterates p x c.id c.link? := by
    rw [Iterates, faces_of_stored member.stored, Concept.face, member.kind, member.container]
  obtain ⟨id, named, -⟩ := backed.iteration p x model c.id _ owner setup
  exact ⟨id, link ▸ named, named ▸ setup⟩

/-- What can wait while the setups are backed: operations that cause nothing more, or a single one.
That one was submitted and does not target roots or iterations, or removes such a concept that no
setup stands for. -/
inductive Pending (F : Faces) : List (Partition × Operation) → Prop
  | calm {queue : List (Partition × Operation)} (all : ∀ x ∈ queue, x.2.Calm) : Pending F queue
  | asked {p : Partition} {operation : Operation} (root : operation.conceptType ≠ .engineeringModel)
      (iteration : operation.conceptType ≠ .iteration) : Pending F [(p, operation)]
  | removing {p : Partition} {id : ConceptId} {t : ConceptType}
      (kind : t = .engineeringModel ∨ t = .iteration)
      (spares : ∀ y, F.Needed p y → ¬ Outline.Within (F.outlines p) id y) :
      Pending F [(p, .delete id t)]

/-- The creation of a concept waits whose identifier is taken. -/
structure Doomed (F : Faces) (queue : List (Partition × Operation)) : Prop where
  calm : ∀ x ∈ queue, x.2.Calm
  taken : ∃ q c orderKey, (q, .create c orderKey) ∈ queue ∧ F q c.id ≠ none

/-- The setups are backed, unless the batch is bound to fail. -/
def Sound (F : Faces) (queue : List (Partition × Operation)) : Prop :=
  F.Doomed queue ∨ (F.Backed queue ∧ F.Pending queue)

end Faces

namespace IterationSetup

variable {env : Setting} {p : Partition} {d : Draft} {context : SecurityContext}
  {setup parent : Concept} {prior : List Concept} {model id : ConceptId} {previous : Option Concept}
  {contents cascades : List Cascade}

theorem previousIteration_source {setting : HookSetting} {c : Concept}
    (run : previousIteration setup model prior setting = .ok (some c)) :
    ∃ s ∈ prior, ∃ id, s.ref? Property.iterationIid = some id ∧
      setting.lookup (.model model) id = .ok (some c) := by
  unfold previousIteration at run
  dsimp only at run
  split at run
  · rename_i id named
    obtain ⟨s, source, named⟩ := Option.bind_eq_some_iff.mp named
    obtain ⟨x, -, found⟩ := Option.bind_eq_some_iff.mp source
    exact ⟨s, List.mem_of_find?_eq_some found, id, named, run⟩
  · cases run

/-- A type of what can be in a model, as opposed to the site directory and the setups. -/
def InModel (t : ConceptType) : Prop :=
  t ≠ .siteDirectory ∧ t ≠ .engineeringModelSetup ∧ t ≠ .iterationSetup

theorem InModel.target {t : ConceptType} (inside : InModel t) {q : Containment}
    (declared : q ∈ t.containment) : InModel q.target := by
  have closed : t ≠ .siteDirectory → t ≠ .engineeringModelSetup → ∀ q ∈ t.containment,
      q.target ≠ .siteDirectory ∧ q.target ≠ .engineeringModelSetup ∧
        q.target ≠ .iterationSetup := by
    cases t <;> decide
  exact closed inside.1 inside.2.1 q declared

/-- What is repeated of a stored concept in a model is in the model too. -/
theorem copies_inModel {parent : ConceptId} (forest : Forest (d.find? (.model model)))
    (stored : ∀ c, previous = some c → ∃ y, d.find? (.model model) y = some c)
    (inside : ∀ c, previous = some c → InModel c.conceptType) {s t : HookState}
    (run : copies (d.hookSetting env p context (some setup)) (.model model) parent previous s =
      (.ok contents, t)) :
    ∀ x ∈ contents, ∃ c orderKey, x = creating (.model model) c orderKey ∧ InModel c.conceptType := by
  cases previous with
  | none =>
    obtain ⟨rfl, -⟩ := Step.pure_eq_ok_iff.mp run
    exact fun x member => nomatch member
  | some source =>
    have all := copyContents_ok
      (T := fun c => (∃ y, d.find? (.model model) y = some c) ∧ InModel c.conceptType) ?_
      ⟨stored source rfl, inside source rfl⟩ run
    · intro x member
      obtain ⟨child, new, parent, orderKey, ⟨-, kind⟩, rfl⟩ := all x member
      refine ⟨_, orderKey, rfl, ?_⟩
      rw [copyOf, Concept.withoutChildren_conceptType]
      exact kind
    · rintro c ⟨⟨y, there⟩, kind⟩ entry listed child looked
      have found : d.find? (.model model) entry.1 = some child := Except.ok.inj looked
      obtain ⟨q, declared, member⟩ := List.mem_flatMap.mp listed
      have named := (forest.listed y c there q declared entry.1).mp (List.mem_map_of_mem member)
      obtain ⟨child', found', outline⟩ := outlines_eq_some_iff.mp named
      cases found.symm.trans found'
      have type : child.conceptType = q.target := congrArg Outline.conceptType outline
      exact ⟨⟨entry.1, found⟩, type ▸ kind.target declared⟩

theorem iterationOf_conceptType (follows : ∀ c, previous = some c → c.conceptType = .iteration) :
    (iterationOf setup id model previous).conceptType = .iteration := by
  refine (Concept.withoutChildren_conceptType _).trans ?_
  cases previous with
  | none => rfl
  | some c => exact follows c rfl

theorem iterationOf_face (follows : ∀ c, previous = some c → c.conceptType = .iteration) :
    (iterationOf setup id model previous).face = .iteration model setup.id := by
  have named : (iterationOf setup id model previous).ref? Property.iterationSetup = some setup.id := by
    rw [iterationOf, Concept.ref?, Concept.property?_setProperty_self]
    rfl
  have container : (iterationOf setup id model previous).container = some model :=
    Concept.withoutChildren_container _
  rw [Concept.face_of_link (iterationOf_conceptType follows) rfl named, container, Face.iteration]

/-- What a new iteration setup causes is calm, if what it follows is an iteration. -/
theorem Begins.calm (begins : Begins (d.hookSetting env p context (some parent)) setup parent prior
      model id previous contents cascades)
    (forest : Forest (d.find? (.model model))) (owner : parent.conceptType = .engineeringModelSetup)
    (setups : ∀ s ∈ prior, s.conceptType = .iterationSetup)
    (stored : ∀ c, previous = some c → ∃ y, d.find? (.model model) y = some c)
    (follows : ∀ c, previous = some c → c.conceptType = .iteration) :
    ∀ x ∈ cascades, x.operation.Calm := by
  have inside : ∀ c, previous = some c → InModel c.conceptType := by
    intro c same
    rw [follows c same]
    exact ⟨nofun, nofun, nofun⟩
  intro x member
  rw [begins.caused] at member
  rcases List.mem_append.mp member with updates | creations
  · rcases List.mem_cons.mp updates with rfl | freezes
    · show parent.conceptType ≠ _ ∧ parent.conceptType ≠ _
      rw [owner]
      decide
    · obtain ⟨s, chosen, rfl⟩ := List.mem_map.mp freezes
      show s.conceptType ≠ _ ∧ s.conceptType ≠ _
      rw [setups s (List.mem_filter.mp chosen).1]
      decide
  · rcases List.mem_cons.mp creations with rfl | copy
    · have type : (iterationOf setup id model previous).conceptType = .iteration :=
        iterationOf_conceptType follows
      rintro (kind | kind) <;> cases type.symm.trans kind
    · obtain ⟨s, t, run⟩ := begins.copied
      obtain ⟨c, orderKey, rfl, -, first, second⟩ := copies_inModel forest stored inside run x copy
      exact fun setup => setup.elim first second

end IterationSetup

namespace Batch

open Faces

variable {env : Setting} {p : Partition} {d d' : Draft} {operation : Operation}
  {cascades : List Cascade} {waiting : List (Partition × Operation)}

/-- A calm operation causes nothing. -/
theorem Caused.of_calm (caused : Caused env p d d' operation cascades) (calm : operation.Calm) :
    cascades = [] := by
  cases caused with
  | nothing => rfl
  | founded kind => exact absurd (.inl kind) calm
  | begun kind => exact absurd (.inr kind) calm
  | closed | ended => exact calm.elim

theorem Refaced.of_create {F F' : Faces} {c : Concept} {orderKey : Option Int64}
    (refaced : Refaced p F F' (.create c orderKey)) :
    F p c.id = none ∧ ∀ q x, (q = p → x ≠ c.id) → F' q x = F q x := by
  cases refaced with
  | same other _ => exact absurd rfl (other c orderKey)
  | created fresh _ _ _ rest => exact ⟨fresh, rest⟩

/-- While a creation waits whose identifier is taken, what is executed before it does not free that
identifier, and it cannot be executed itself. -/
theorem Effect.doomed (standard : env.registry = Registry.standard) (forests : d.Forested)
    (doomed : (Stock.faces d.find?).Doomed ((p, operation) :: waiting))
    (effect : Effect env p d operation cascades d') :
    (Stock.faces d'.find?).Doomed (waiting ++ cascades.map (place p)) := by
  have calm := doomed.calm _ List.mem_cons_self
  have refaced := effect.refaced standard (forests p) calm.ties
  rw [(effect.caused standard (forests p)).of_calm calm, List.map_nil, List.append_nil]
  refine ⟨fun x member => doomed.calm x (List.mem_cons_of_mem _ member), ?_⟩
  obtain ⟨q, c, orderKey, member, taken⟩ := doomed.taken
  rcases List.mem_cons.mp member with head | later
  · cases head
    exact absurd refaced.of_create.1 taken
  · refine ⟨q, c, orderKey, later, ?_⟩
    cases refaced with
    | same _ same => rwa [same]
    | created fresh _ _ _ rest =>
      rw [rest q c.id]
      · exact taken
      · rintro rfl same
        exact taken (same ▸ fresh)
    | removed => exact calm.elim

/-- A new setup of an engineering model. -/
theorem sound_of_founded {c setup : Concept} {orderKey : Option Int64} {model : ConceptId}
    (forest : Forest (d.find? p)) (forest' : Forest (d'.find? p))
    (backed : (Stock.faces d.find?).Backed [])
    (refaced : Refaced p (Stock.faces d.find?) (Stock.faces d'.find?) (.create c orderKey))
    (kind : setup.conceptType = .engineeringModelSetup) (stored : d'.find? p c.id = some setup)
    (named : setup.ref? Property.engineeringModelIid = some model) :
    (Stock.faces d'.find?).Sound
      [(.model model, .create (EngineeringModelSetup.rootOf setup model) none)] := by
  obtain ⟨fresh, rest⟩ := refaced.of_create
  have calm : (Operation.create (EngineeringModelSetup.rootOf setup model) none).Calm :=
    fun setup => nomatch setup
  have all : ∀ x ∈ [(Partition.model model, Operation.create
      (EngineeringModelSetup.rootOf setup model) none)], x.2.Calm := by
    intro x member
    rw [List.mem_singleton.mp member]
    exact calm
  by_cases free : Stock.faces d'.find? (.model model) model = none
  · refine .inr ⟨backed.founded fresh (models_of_stored stored kind named) rest ?_ free rfl ?_,
      .calm all⟩
    · -- what is contained in a concept was stored after it
      intro x u there named
      obtain ⟨c₀, stored₀, rfl⟩ := faces_eq_some_iff.mp there
      obtain ⟨parent, -, above, -⟩ := forest.container_stored stored₀ named
      cases fresh.symm.trans (faces_of_stored above)
    · rw [← forest'.keyed _ _ stored]
      rfl
  · exact .inl ⟨all, _, _, _, List.mem_singleton_self _, free⟩

/-- What an iteration setup follows is an iteration that is stored. -/
theorem previous_stored {context : SecurityContext} {c setup parent : Concept}
    {orderKey : Option Int64} {prior : List Concept} {model id : ConceptId} {previous : Option Concept}
    {contents : List Cascade} (forest' : Forest (d'.find? p))
    (backed : (Stock.faces d.find?).Backed [])
    (refaced : Refaced p (Stock.faces d.find?) (Stock.faces d'.find?) (.create c orderKey))
    (here : setup.id = c.id) (above : d'.find? p parent.id = some parent)
    (apart : parent.id ≠ c.id) (owner : parent.conceptType = .engineeringModelSetup)
    (begins : Begins (d'.hookSetting env p context (some parent)) setup parent prior model id previous
      contents cascades) {source : Concept} (follows : previous = some source) :
    ∃ y, d'.find? (.model model) y = some source ∧ source.conceptType = .iteration := by
  obtain ⟨fresh, rest⟩ := refaced.of_create
  subst follows
  obtain ⟨s, chosen, y, named, looked⟩ := previousIteration_source begins.follows
  have stored : d'.find? (.model model) y = some source := Except.ok.inj looked
  obtain ⟨member, other⟩ := (siblings_ok rfl forest' above owner begins.listed s).mp chosen
  have models : (Stock.faces d.find?).Models p parent.id (some model) := by
    unfold Models
    rw [← rest p parent.id fun _ => apart]
    exact models_of_stored above owner begins.owner
  have iterates : (Stock.faces d.find?).Iterates p parent.id s.id (some y) := by
    rw [Iterates, ← rest p s.id fun _ => here ▸ other]
    exact iterates_of_stored member.stored member.kind member.container named
  have iteration := backed.inner models iterates
  refine ⟨y, stored, ?_⟩
  have after := stored_after fresh rest iteration
  rw [faces_of_stored stored] at after
  exact congrArg Face.conceptType (Option.some.inj after)

/-- A new iteration setup. -/
theorem sound_of_begun {context : SecurityContext} {c setup parent : Concept}
    {orderKey : Option Int64} {prior : List Concept} {model id : ConceptId} {previous : Option Concept}
    {contents : List Cascade} (forests' : d'.Forested) (backed : (Stock.faces d.find?).Backed [])
    (refaced : Refaced p (Stock.faces d.find?) (Stock.faces d'.find?) (.create c orderKey))
    (kind : setup.conceptType = .iterationSetup) (stored : d'.find? p c.id = some setup)
    (container : setup.container = some parent.id) (above : d'.find? p parent.id = some parent)
    (begins : Begins (d'.hookSetting env p context (some parent)) setup parent prior model id previous
      contents cascades) : (Stock.faces d'.find?).Sound (cascades.map (place p)) := by
  obtain ⟨fresh, rest⟩ := refaced.of_create
  have here : setup.id = c.id := (forests' p).keyed _ _ stored
  have member : Member (d'.find? p) parent.id setup := ⟨here ▸ stored, kind, container⟩
  have owner := member.kind_of_stored (forests' p) above
  have apart : parent.id ≠ c.id := by
    rintro same
    cases above.symm.trans (same ▸ stored)
    cases owner.symm.trans kind
  have previous_ok : ∀ {source}, previous = some source → _ := fun follows =>
    previous_stored (forests' p) backed refaced here above apart owner begins follows
  have follows : ∀ source, previous = some source → source.conceptType = .iteration :=
    fun source follows => (previous_ok follows).elim fun _ => And.right
  have calm := begins.calm (forests' _) owner
    (fun s chosen => ((siblings_ok rfl (forests' p) above owner begins.listed s).mp chosen).1.kind)
    (fun source follows => (previous_ok follows).imp fun _ => And.left) follows
  have all : ∀ x ∈ cascades.map (place p), x.2.Calm := by
    intro x inside
    obtain ⟨y, caused, rfl⟩ := List.mem_map.mp inside
    exact calm y caused
  have waits : (.model model, .create (iterationOf setup id model previous) none) ∈
      cascades.map (place p) := by
    rw [begins.caused]
    exact List.mem_map_of_mem (f := place p) (List.mem_append_right _ List.mem_cons_self)
  have named : (iterationOf setup id model previous).id = id := Concept.withoutChildren_id _
  by_cases free : Stock.faces d'.find? (.model model) id = none
  · have begun := iterates_of_stored stored kind container begins.named
    have face : (iterationOf setup id model previous).face = .iteration model setup.id :=
      iterationOf_face follows
    exact .inr ⟨backed.begun fresh begun rest (models_of_stored above owner begins.owner)
      ⟨_, none, waits, named, here ▸ face⟩, .calm all⟩
  · refine .inl ⟨all, _, _, _, waits, ?_⟩
    rw [named]
    exact free

/-- An operation that was submitted and does not target a root or an iteration. -/
theorem Effect.asked (standard : env.registry = Registry.standard) (forests : d.Forested)
    (root : operation.conceptType ≠ .engineeringModel) (iteration : operation.conceptType ≠ .iteration)
    (asked : (Stock.faces d.find?).Backed [(p, operation)])
    (effect : Effect env p d operation cascades d') :
    (Stock.faces d'.find?).Sound (cascades.map (place p)) := by
  have forests' := effect.forested standard forests
  have backed := asked.settle root iteration
  have refaced := effect.refaced standard (forests p) (by rintro u rfl; exact ⟨root, iteration⟩)
  have step : ¬ operation.CreatesSetup → ∀ more, (Stock.faces d'.find?).Backed more := by
    intro plain more
    show (Stock.faces d'.find?).Backed ([] ++ more)
    refine asked.step refaced plain ?_
    rintro id t u rfl there rfl y
    exact backed.spares there root iteration
  cases effect.caused standard (forests p) with
  | nothing plain => exact .inr ⟨step plain _, .calm fun x member => nomatch member⟩
  | @founded c setup orderKey model kind stored outline named =>
    have type : setup.conceptType = c.conceptType := congrArg Outline.conceptType outline
    exact sound_of_founded (forests p) (forests' p) backed refaced (type.trans kind) stored named
  | @begun c setup _ _ _ _ _ _ _ _ _ kind stored outline container above begins =>
    have type : setup.conceptType = c.conceptType := congrArg Outline.conceptType outline
    exact sound_of_begun forests' backed refaced (type.trans kind) stored container above begins
  | @closed id former model stored kind gone named =>
    have setup := models_of_stored stored kind named
    have none : Stock.faces d'.find? p id = none := by
      rw [Stock.faces, gone]
      rfl
    refine .inr ⟨step not_false _, .removing (.inl rfl) fun y needed => ?_⟩
    exact absurd needed (backed.closed (fewer refaced not_false) setup none)
  | @ended x former parent model id stored kind gone container there owner named =>
    have setup := iterates_of_stored stored kind container named
    have type : parent.conceptType = .engineeringModelSetup := by
      obtain ⟨above, q, before, fits⟩ := (forests p).container_stored stored container
      rw [kind] at fits
      rcases (effect.origin standard (forests p) there).outline standard with
        ⟨old, stored, outline⟩ | ⟨_, _, new, -⟩
      · cases before.symm.trans stored
        exact (congrArg Outline.conceptType outline).trans (model_of_containmentFor? fits)
      · cases new
    have none : Stock.faces d'.find? p x = none := by
      rw [Stock.faces, gone]
      rfl
    refine .inr ⟨step not_false _, .removing (.inr rfl) fun y needed => ?_⟩
    exact backed.ended (step not_false []) (fewer refaced not_false)
      (models_of_stored there type owner) setup none needed

/-- Every operation keeps the setups backed or leads to a batch that is bound to fail. -/
theorem Effect.sound (standard : env.registry = Registry.standard) (forests : d.Forested)
    (sound : (Stock.faces d.find?).Sound ((p, operation) :: waiting))
    (effect : Effect env p d operation cascades d') :
    (Stock.faces d'.find?).Sound (waiting ++ cascades.map (place p)) := by
  rcases sound with doomed | ⟨backed, pending⟩
  · exact .inl (effect.doomed standard forests doomed)
  · cases pending with
    | calm all =>
      have calm := all _ List.mem_cons_self
      have refaced := effect.refaced standard (forests p) calm.ties
      rw [(effect.caused standard (forests p)).of_calm calm]
      refine .inr ⟨backed.step refaced calm.plain ?_, .calm fun x member => ?_⟩
      · rintro id t u rfl
        exact calm.elim
      · rw [List.map_nil, List.append_nil] at member
        exact all x (List.mem_cons_of_mem _ member)
    | asked root iteration => exact effect.asked standard forests root iteration backed
    | @removing _ id t kind spares =>
      -- the removal of a root or an iteration causes nothing more
      have refaced := effect.refaced standard (forests p) (fun u same => by cases same)
      have nothing : cascades = [] := by
        cases effect.caused standard (forests p) with
        | nothing => rfl
        | closed => cases kind <;> contradiction
        | ended => cases kind <;> contradiction
      rw [nothing]
      refine .inr ⟨backed.step refaced not_false ?_, .calm fun x member => nomatch member⟩
      rintro _ _ u ⟨⟩ - - y
      exact spares y

end Batch

namespace Memory

open Faces

/-- Every setup has what it stands for: the setup of an engineering model the root of the model that
it names, and every iteration setup in it an iteration of that root, each of which names the setup in
turn. No two setups name the same. -/
structure Contents.Backed (s : Contents) : Prop where
  model : ∀ p x e, s.find? p x = some e → e.conceptType = .engineeringModelSetup →
    ∃ model root, e.ref? Property.engineeringModelIid = some model ∧
      s.find? (.model model) model = some root ∧ root.conceptType = .engineeringModel ∧
      root.ref? Property.engineeringModelSetup = some x
  iteration : ∀ p x e c, s.find? p x = some e → e.conceptType = .engineeringModelSetup →
    Member (s.find? p) x c →
    ∃ model id i, e.ref? Property.engineeringModelIid = some model ∧
      c.ref? Property.iterationIid = some id ∧ s.find? (.model model) id = some i ∧
      i.conceptType = .iteration ∧ i.container = some model ∧
      i.ref? Property.iterationSetup = some c.id
  alone : ∀ p x e p' x' e', s.find? p x = some e → e.conceptType = .engineeringModelSetup →
    s.find? p' x' = some e' → e'.conceptType = .engineeringModelSetup →
    e.ref? Property.engineeringModelIid = e'.ref? Property.engineeringModelIid → p = p' ∧ x = x'
  distinct : ∀ p x e a b, s.find? p x = some e → e.conceptType = .engineeringModelSetup →
    Member (s.find? p) x a → Member (s.find? p) x b →
    a.ref? Property.iterationIid = b.ref? Property.iterationIid → a.id = b.id

theorem Contents.Backed.of_faces {s : Contents} (backed : (Stock.faces s.find?).Backed []) :
    s.Backed := by
  refine ⟨fun p x e stored kind => ?_, fun p x e c stored kind member => ?_,
    fun p x e p' x' e' stored kind stored' kind' same => ?_,
    fun p x e a b stored kind first second same => ?_⟩
  · obtain ⟨model, named, setup⟩ := backed.names_model stored kind
    obtain ⟨root, there, face⟩ := faces_eq_some_iff.mp (backed.root setup)
    have type : root.conceptType = .engineeringModel := congrArg Face.conceptType face
    have link : root.link? = some x := congrArg Face.link face
    rw [Concept.link?, type] at link
    exact ⟨model, root, named, there, type, link⟩
  · obtain ⟨model, owner, setup⟩ := backed.names_model stored kind
    obtain ⟨id, named, inner⟩ := backed.names_iteration setup member
    obtain ⟨i, there, face⟩ := faces_eq_some_iff.mp (backed.inner setup inner)
    have type : i.conceptType = .iteration := congrArg Face.conceptType face
    have link : i.link? = some c.id := congrArg Face.link face
    rw [Concept.link?, type] at link
    exact ⟨model, id, i, owner, named, there, type, congrArg Face.container face, link⟩
  · obtain ⟨model, named, setup⟩ := backed.names_model stored kind
    obtain ⟨model', named', setup'⟩ := backed.names_model stored' kind'
    rw [named, named'] at same
    cases same
    exact backed.alone p x p' x' model setup setup'
  · obtain ⟨model, -, setup⟩ := backed.names_model stored kind
    obtain ⟨id, named, inner⟩ := backed.names_iteration setup first
    obtain ⟨id', named', inner'⟩ := backed.names_iteration setup second
    rw [named, named'] at same
    cases same
    -- both are named by the same iteration
    have one := (backed.inner setup inner).symm.trans (backed.inner setup inner')
    exact Option.some.inj (congrArg Face.link (Option.some.inj one))

/-- After every history under the standard registry in which no submitted operation targets the root
of a model or an iteration, every setup has what it stands for, and no two have the same. -/
theorem backed_after (visits : List Visit)
    (standard : ∀ v ∈ visits, v.policy.registry = Registry.standard)
    (indirect : ∀ p operation, Submitted visits p operation →
      operation.conceptType ≠ .engineeringModel ∧ operation.conceptType ≠ .iteration) :
    (Database.after visits).contents.Backed := by
  have sound : (Stock.faces (Database.after visits).contents.find?).Sound [] := by
    refine after_keeps_queue (I := fun f queue => f.faces.Sound queue) standard ?_ ?_ ?_
    · refine .inr ⟨⟨fun p e l setup => ?_, fun p e p' e' model setup => ?_,
        fun p e model s l setup => ?_⟩, .calm fun x member => nomatch member⟩ <;>
      · obtain ⟨k, there⟩ := setup
        cases there
    · intro f p operation entered sound
      rcases sound with ⟨-, _, _, _, member, -⟩ | ⟨backed, -⟩
      · cases member
      · obtain ⟨root, iteration⟩ := indirect p operation entered
        exact .inr ⟨backed.await, .asked root iteration⟩
    · intro env d d' p operation waiting cascades registry forests sound effect
      exact effect.sound registry forests sound
  rcases sound with ⟨-, _, _, _, member, -⟩ | ⟨backed, -⟩
  · cases member
  · exact .of_faces backed

/-- A model with two iterations is set up in the site directory alone. -/
theorem backed_after_iterating :
    (∃ e, (Database.after [founding, iterating]).contents.find? .siteDirectory (.ofNat 3) = some e ∧
      e.conceptType = .engineeringModelSetup) ∧
    (Database.after [founding, iterating]).contents.Backed := by
  refine ⟨stored_of_any (by decide +kernel),
    backed_after [founding, iterating] (founding_standard rfl) ?_⟩
  rintro p operation ⟨policy, request, now, ids, member, -, inside⟩
  rcases List.mem_pair.mp member with same | same <;> cases same
  · cases List.mem_singleton.mp inside
    decide
  · simp only [List.mem_cons, List.not_mem_nil, or_false] at inside
    rcases inside with rfl | rfl | rfl <;> decide

end Memory

end ConceptLedger
