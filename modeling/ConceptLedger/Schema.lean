import ConceptLedger.Data.SortedMap

/-!
The containment schema: for every type of concept, the properties through which it contains other
concepts and those through which it merely refers to them. Reading, checking and removal of
subtrees all follow this one table.
-/

namespace ConceptLedger

/-- The types of concept, in the order in which they are listed. -/
inductive ConceptType where
  | siteDirectory
  | siteReferenceDataLibrary
  | simpleUnit
  | simpleQuantityKind
  | engineeringModelSetup
  | iterationSetup
  | engineeringModel
  | iteration
  | elementDefinition
  | aliasName
  | definition
  | hyperLink
deriving DecidableEq, Inhabited

namespace ConceptType

/-- All types in order. -/
def all : List ConceptType :=
  [.siteDirectory, .siteReferenceDataLibrary, .simpleUnit, .simpleQuantityKind,
    .engineeringModelSetup, .iterationSetup, .engineeringModel, .iteration, .elementDefinition,
    .aliasName, .definition, .hyperLink]

/-- The written name of a type. -/
def name : ConceptType → String
  | siteDirectory => "SiteDirectory"
  | siteReferenceDataLibrary => "SiteReferenceDataLibrary"
  | simpleUnit => "SimpleUnit"
  | simpleQuantityKind => "SimpleQuantityKind"
  | engineeringModelSetup => "EngineeringModelSetup"
  | iterationSetup => "IterationSetup"
  | engineeringModel => "EngineeringModel"
  | iteration => "Iteration"
  | elementDefinition => "ElementDefinition"
  | aliasName => "Alias"
  | definition => "Definition"
  | hyperLink => "HyperLink"

/-- The type of a written name. -/
def ofName? (name : String) : Option ConceptType := all.find? fun t => t.name = name

/-- The place of a type in the list of all types. -/
def index (t : ConceptType) : Nat := t.ctorIdx

instance : Ord ConceptType := ⟨compareOn index⟩

theorem index_injective {a b : ConceptType} (same : a.index = b.index) : a = b := by
  cases a <;> cases b <;> first | rfl | exact absurd same (by decide)

instance : Std.TransOrd ConceptType := inferInstanceAs (Std.TransCmp (compareOn index))

instance : Std.LawfulEqOrd ConceptType where
  eq_of_compare {a b} same := by
    have same : compare a.index b.index = .eq := same
    exact index_injective (Std.LawfulEqCmp.eq_of_compare same)

end ConceptType

/-- A property that lists contained concepts of one type, with order keys or without. -/
structure Containment where
  name : String
  target : ConceptType
  ordered : Bool
deriving DecidableEq

/-- A property that refers to concepts of one type. -/
structure Association where
  name : String
  target : ConceptType
deriving DecidableEq

namespace Property

/-! The names of the properties that have a meaning of their own. -/

def aliases := "alias"
def definition := "definition"
def hyperLink := "hyper_link"
def model := "model"
def siteReferenceDataLibrary := "site_reference_data_library"
def unit := "unit"
def parameterType := "parameter_type"
def defaultUnit := "default_unit"
def iterationSetup := "iteration_setup"
def activeIterationSetup := "active_iteration_setup"
def sourceIterationSetup := "source_iteration_setup"
def engineeringModelIid := "engineering_model_iid"
def engineeringModelSetup := "engineering_model_setup"
def iteration := "iteration"
def iterationIid := "iteration_iid"
def iterationNumber := "iteration_number"
def frozenOn := "frozen_on"
def isDeleted := "is_deleted"
def element := "element"
def owner := "owner"

end Property

namespace ConceptType

/-- The properties of aliases, definitions and links. -/
def annotations : List Containment :=
  [⟨Property.aliases, aliasName, false⟩, ⟨Property.definition, definition, false⟩,
    ⟨Property.hyperLink, hyperLink, false⟩]

/-- The containment properties of a type, in declaration order. -/
def containment : ConceptType → List Containment
  | siteDirectory =>
    [⟨Property.model, engineeringModelSetup, false⟩,
      ⟨Property.siteReferenceDataLibrary, siteReferenceDataLibrary, false⟩]
  | siteReferenceDataLibrary =>
    ⟨Property.unit, simpleUnit, false⟩ :: ⟨Property.parameterType, simpleQuantityKind, false⟩ ::
      annotations
  | simpleUnit => annotations
  | simpleQuantityKind => annotations
  | engineeringModelSetup =>
    [⟨Property.iterationSetup, iterationSetup, false⟩, ⟨Property.aliases, aliasName, false⟩,
      ⟨Property.definition, definition, false⟩]
  | iterationSetup => []
  | engineeringModel => [⟨Property.iteration, iteration, false⟩]
  | iteration => [⟨Property.element, elementDefinition, false⟩]
  | elementDefinition =>
    [⟨Property.definition, definition, true⟩, ⟨Property.aliases, aliasName, false⟩,
      ⟨Property.hyperLink, hyperLink, false⟩]
  | aliasName => []
  | definition => []
  | hyperLink => []

/-- The association properties of a type, in declaration order. -/
def associations : ConceptType → List Association
  | simpleQuantityKind => [⟨Property.defaultUnit, simpleUnit⟩]
  | engineeringModelSetup => [⟨Property.activeIterationSetup, iterationSetup⟩]
  | iterationSetup => [⟨Property.sourceIterationSetup, iterationSetup⟩]
  | _ => []

/-- Roots are the types of concept that nothing contains. -/
def isRoot : ConceptType → Bool
  | siteDirectory => true
  | engineeringModel => true
  | _ => false

/-- The property through which a type contains concepts of a given type. -/
def containmentFor? (t child : ConceptType) : Option Containment :=
  t.containment.find? fun p => p.target = child

/-- The containment property of a name. -/
def containmentNamed? (t : ConceptType) (name : String) : Option Containment :=
  t.containment.find? fun p => p.name = name

/-- The association property of a name. -/
def associationNamed? (t : ConceptType) (name : String) : Option Association :=
  t.associations.find? fun p => p.name = name

theorem containment_names_nodup (t : ConceptType) : (t.containment.map (·.name)).Nodup := by
  cases t <;> decide

theorem containment_targets_nodup (t : ConceptType) : (t.containment.map (·.target)).Nodup := by
  cases t <;> decide

theorem association_ne_containment {t : ConceptType} {a : Association} {p : Containment}
    (association : a ∈ t.associations) (containment : p ∈ t.containment) : a.name ≠ p.name := by
  have apart : ∀ a ∈ t.associations, ∀ p ∈ t.containment, a.name ≠ p.name := by
    cases t <;> decide
  exact apart a association p containment

/-- A type contains concepts of another one through at most one property. -/
theorem containmentFor?_eq_some_iff {t child : ConceptType} {p : Containment} :
    t.containmentFor? child = some p ↔ p ∈ t.containment ∧ p.target = child := by
  unfold containmentFor?
  constructor
  · intro found
    exact ⟨List.mem_of_find?_eq_some found, by simpa using List.find?_some found⟩
  · rintro ⟨member, rfl⟩
    have nodup := t.containment_targets_nodup
    generalize t.containment = l at member nodup
    induction l with
    | nil => cases member
    | cons q rest ih =>
      obtain ⟨apart, tail⟩ := List.nodup_cons.mp nodup
      rcases List.mem_cons.mp member with rfl | later
      · simp
      · have other : q.target ≠ p.target := fun same =>
          apart (List.mem_map.mpr ⟨p, later, same.symm⟩)
        simpa [List.find?_cons, other] using ih later tail

end ConceptType

end ConceptLedger
