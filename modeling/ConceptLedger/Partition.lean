import ConceptLedger.Uuid

/-!
Partitions: scopes with a revision sequence and a default policy of their own. There is one site
directory, and one partition for each engineering model, named by the model's identifier.
-/

namespace ConceptLedger

/-- Which default policy a partition falls under. -/
inductive Scope where
  | canonical
  | reference
deriving DecidableEq

/-- The site directory or the partition of an engineering model. -/
inductive Partition where
  | model (id : Uuid)
  | siteDirectory
deriving DecidableEq

namespace Partition

instance : Inhabited Partition := ⟨.siteDirectory⟩

/-- Partitions in the order of their names: models by identifier, then the site directory. -/
instance : Ord Partition where
  compare
    | .model a, .model b => compare a b
    | .model _, .siteDirectory => .lt
    | .siteDirectory, .model _ => .gt
    | .siteDirectory, .siteDirectory => .eq

theorem compare_model (a b : Uuid) : compare (model a) (model b) = compare a b := rfl

instance : Std.TransOrd Partition where
  eq_swap {a b} := by
    cases a <;> cases b <;> first
      | rfl
      | exact @Std.OrientedCmp.eq_swap Uuid compare _ _ _
  isLE_trans {a b c} := by
    cases a <;> cases b <;> cases c <;> first
      | exact @Std.TransCmp.isLE_trans Uuid compare _ _ _ _
      | (intro first second; revert first second; simp [compare])

instance : Std.LawfulEqOrd Partition where
  compare_self {a} := by
    cases a with
    | model id => exact @Std.ReflCmp.compare_self Uuid compare _ _
    | siteDirectory => rfl
  eq_of_compare {a b} same := by
    cases a <;> cases b
    · rw [compare_model] at same
      rw [Std.LawfulEqCmp.eq_of_compare same]
    · exact absurd same (by simp [compare])
    · exact absurd same (by simp [compare])
    · rfl

/-- The name of the site directory. -/
def siteDirectoryName : List Char := "SiteDirectory".toList

/-- What the name of a model's partition starts with. -/
def modelNameStart : List Char := "EngineeringModel_".toList

/-- The characters of a partition's name. -/
def nameChars : Partition → List Char
  | siteDirectory => siteDirectoryName
  | model id => modelNameStart ++ id.digits

/-- The name of a partition. -/
def name (p : Partition) : String := String.ofList p.nameChars

/-- The partition of a name. A model may be named by any spelling of its identifier. -/
def readChars? (cs : List Char) : Option Partition :=
  if cs = siteDirectoryName then some siteDirectory
  else if cs.take modelNameStart.length = modelNameStart then
    (Uuid.readChars? (cs.drop modelNameStart.length)).map model
  else none

/-- The partition of a name. -/
def read? (name : String) : Option Partition := readChars? name.toList

/-- The site directory is reference data, models are canonical. -/
def scope : Partition → Scope
  | siteDirectory => .reference
  | model _ => .canonical

/-- The identifier of the model, if there is one. -/
def modelId? : Partition → Option Uuid
  | siteDirectory => none
  | model id => some id

end Partition

end ConceptLedger
