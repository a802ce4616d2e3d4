import ConceptLedger.Hook.IterationSetup
import ConceptLedger.Proofs.Containment.Forest
import Mathlib.Data.Finset.Card
import Mathlib.Order.Monotone.Basic

/-!
How deep a copy goes. The contents of an iteration are copied by a walk that nothing keeps from concepts
which it has met before. It ends where the contents are shallow: no chain of concepts, each of which is
listed by the one before it, is longer than a certain number. If there is such a number, then that of
all concepts will do. So a walk that goes deeper than there are concepts has no end at any depth.
-/

namespace ConceptLedger

/-- The entries of all containment lists of a concept, in the order of their declaration. -/
def Concept.listing (c : Concept) : List (ConceptId × Option Int64) :=
  c.conceptType.containment.flatMap c.entries

namespace ConceptType

/-- The number of levels that there can be within concepts of a type. -/
def height : ConceptType → Nat
  | siteDirectory | engineeringModel => 3
  | siteReferenceDataLibrary | iteration => 2
  | simpleUnit | simpleQuantityKind | engineeringModelSetup | elementDefinition => 1
  | iterationSetup | aliasName | definition | hyperLink => 0

theorem height_target {t : ConceptType} {q : Containment} (declared : q ∈ t.containment) :
    q.target.height < t.height := by
  have lower : ∀ q ∈ t.containment, q.target.height < t.height := by
    cases t <;> decide
  exact lower q declared

end ConceptType

/-- A concept has fewer than so many levels below it. -/
def Shallow (f : ConceptId → Option Concept) : Nat → Concept → Prop
  | 0, _ => False
  | levels + 1, c => ∀ entry ∈ c.listing, ∀ child, f entry.1 = some child → Shallow f levels child

namespace Shallow

variable {f : ConceptId → Option Concept} {levels more : Nat} {c : Concept}

theorem succ (shallow : Shallow f levels c) : Shallow f (levels + 1) c := by
  induction levels generalizing c with
  | zero => exact shallow.elim
  | succ levels ih => exact fun entry listed child found => ih (shallow entry listed child found)

theorem mono (shallow : Shallow f levels c) (le : levels ≤ more) : Shallow f more c := by
  induction le with
  | refl => exact shallow
  | step _ ih => exact ih.succ

/-- If a concept has finitely many levels below it, they are no more than there are concepts. -/
theorem within_card {all : Finset ConceptId} (known : ∀ x child, f x = some child → x ∈ all)
    (shallow : Shallow f levels c) : Shallow f (all.card + 1) c := by
  classical
  -- the concepts with few levels below them, which are all that counts one level higher
  let low (n : Nat) := all.filter fun x => ∀ child, f x = some child → Shallow f n child
  have above (n : Nat) (c : Concept) : Shallow f (n + 1) c ↔
      ∀ entry ∈ c.listing, (f entry.1).isSome = true → entry.1 ∈ low n := by
    constructor
    · intro shallow entry listed there
      obtain ⟨child, found⟩ := Option.isSome_iff_exists.mp there
      exact Finset.mem_filter.mpr ⟨known _ _ found, shallow entry listed⟩
    · intro lower entry listed child found
      exact (Finset.mem_filter.mp (lower entry listed (Option.isSome_of_eq_some found))).2 child found
  have grows : Monotone low := monotone_nat_of_le_succ fun n x member =>
    have ⟨here, shallow⟩ := Finset.mem_filter.mp member
    Finset.mem_filter.mpr ⟨here, fun child found => (shallow child found).succ⟩
  have stays (n : Nat) (same : (low n).card = (low (n + 1)).card) :
      (low (n + 1)).card = (low (n + 2)).card := by
    have same := Finset.eq_of_subset_of_card_le (grows n.le_succ) same.ge
    refine congrArg Finset.card (Finset.filter_congr fun x _ => ?_)
    simp only [above, same]
  have bounded (n : Nat) : (low n).card ≤ all.card := Finset.card_le_card (Finset.filter_subset _ _)
  rcases Nat.le_total levels all.card with few | many
  · exact shallow.mono (Nat.le_succ_of_le few)
  · have settled := Nat.stabilises_of_monotone (Finset.card_mono.comp grows) bounded stays many
    have settled := Finset.eq_of_subset_of_card_le (grows many) settled.le
    rw [above, settled, ← above]
    exact shallow.succ

end Shallow

section Forest

variable {f : ConceptId → Option Concept} {c : Concept} {y : ConceptId} {q : Containment}

/-- What a stored concept lists is stored, and is contained in it. -/
theorem Concept.of_mem_entries (forest : Forest f) (stored : f y = some c)
    (declared : q ∈ c.conceptType.containment) {entry : ConceptId × Option Int64}
    (listed : entry ∈ c.entries q) :
    ∃ child, f entry.1 = some child ∧ child.conceptType = q.target ∧ child.container = some y := by
  obtain ⟨child, found, outline⟩ := Forest.outlines_eq_some_iff.mp
    ((forest.listed y c stored q declared entry.1).mp (List.mem_map_of_mem listed))
  exact ⟨child, found, congrArg Outline.conceptType outline, congrArg Outline.container outline⟩

theorem Concept.of_mem_listing (forest : Forest f) (stored : f y = some c) {entry : ConceptId × Option Int64}
    (listed : entry ∈ c.listing) : ∃ q ∈ c.conceptType.containment, ∃ child, f entry.1 = some child ∧
      child.conceptType = q.target ∧ child.container = some y := by
  obtain ⟨q, declared, inside⟩ := List.mem_flatMap.mp listed
  exact ⟨q, declared, of_mem_entries forest stored declared inside⟩

/-- In a forest the levels below a concept are those of its type. -/
theorem Forest.shallow {levels : Nat} (forest : Forest f) (stored : f y = some c)
    (deep : c.conceptType.height < levels) : Shallow f levels c := by
  induction levels generalizing y c with
  | zero => exact absurd deep (Nat.not_lt_zero _)
  | succ levels ih =>
    intro entry listed child found
    obtain ⟨q, declared, child', found', kind, -⟩ := Concept.of_mem_listing forest stored listed
    cases found.symm.trans found'
    have lower := ConceptType.height_target declared
    exact ih found (by rw [kind]; omega)

end Forest

namespace IterationSetup

open Step

variable {setting : HookSetting} {p : Partition} {f : ConceptId → Option Concept} {levels : Nat}
  {source : Concept} {α β σ : Type}

theorem foldlM_settled {step : Nat → β → α → Step σ β} {l : List α}
    (each : ∀ a ∈ l, ∀ b s, ∃ r t, ∀ more, step more b a s = (.ok r, t)) (b : β) (s : σ) :
    ∃ r t, ∀ more, l.foldlM (step more) b s = (.ok r, t) := by
  induction l generalizing b s with
  | nil => exact ⟨b, s, fun _ => rfl⟩
  | cons a rest ih =>
    obtain ⟨r, t, first⟩ := each a List.mem_cons_self b s
    obtain ⟨r', t', later⟩ := ih (fun a later => each a (List.mem_cons_of_mem _ later)) r t
    refine ⟨r', t', fun more => ?_⟩
    rw [List.foldlM_cons, bind_of_ok (first more)]
    exact later more

theorem foldlM_endless {step : β → α → Step σ β} {l : List α}
    (each : ∀ a ∈ l, ∀ b s, (∃ r t, step b a s = (.ok r, t)) ∨ (step b a s).1 = .error .endless)
    {a : α} (member : a ∈ l) (stuck : ∀ b s, (step b a s).1 = .error .endless) (b : β) (s : σ) :
    (l.foldlM step b s).1 = .error .endless := by
  induction l generalizing b s with
  | nil => cases member
  | cons head rest ih =>
    rw [List.foldlM_cons]
    have fails (here : (step b head s).1 = .error .endless) :
        ((step b head >>= fun b => rest.foldlM step b) s).1 = .error .endless :=
      congrArg Prod.fst (bind_of_error (Prod.ext here rfl))
    rcases List.mem_cons.mp member with rfl | later
    · exact fails (stuck b s)
    · rcases each head List.mem_cons_self b s with ⟨r, t, first⟩ | here
      · rw [bind_of_ok first]
        exact ih (fun a later => each a (List.mem_cons_of_mem _ later)) later r t
      · exact fails here

/-- Where the contents are shallow, a copy ends, and going deeper makes no difference to it. -/
theorem copyContents_shallow (lookup : ∀ x, setting.lookup p x = .ok (f x))
    (shallow : Shallow f levels source) (parent : ConceptId) (s : HookState) :
    ∃ cascades t, ∀ more, copyContents setting p (levels + more) source parent s = (.ok cascades, t) := by
  induction levels generalizing source parent s with
  | zero => exact shallow.elim
  | succ levels ih =>
    simp only [Nat.succ_add_eq_add_succ, Nat.add_succ, copyContents]
    refine foldlM_settled (fun entry listed done s => ?_) [] s
    rw [lookup]
    cases found : f entry.1 with
    | none => exact ⟨done, s, fun _ => rfl⟩
    | some child =>
      obtain ⟨inside, t, run⟩ := ih (shallow entry listed child found) s.ids.next
        { s with ids := s.ids.rest }
      exact ⟨_, t, fun more => bind_of_ok (run more)⟩

/-- Where they are not, a copy does not end within so many levels. -/
theorem copyContents_deep (lookup : ∀ x, setting.lookup p x = .ok (f x))
    (shallow : ¬ Shallow f levels source) (parent : ConceptId) (s : HookState) :
    (copyContents setting p levels source parent s).1 = .error .endless := by
  induction levels generalizing source parent s with
  | zero => rfl
  | succ levels ih =>
    simp only [Shallow, not_forall] at shallow
    obtain ⟨entry, listed, child, found, deep⟩ := shallow
    have stuck {child : Concept} (deep : ¬ Shallow f levels child)
        (rest : ConceptId → List Cascade → List Cascade) (s : HookState) :
        ((Hook.newId >>= fun id => copyContents setting p levels child id >>= fun inside =>
          pure (rest id inside)) s).1 = .error .endless :=
      congrArg Prod.fst (bind_of_error (Prod.ext (ih deep s.ids.next { s with ids := s.ids.rest }) rfl))
    refine foldlM_endless (fun entry _ done s => ?_) listed (fun done s => ?_) [] s
    · rw [lookup]
      cases f entry.1 with
      | none => exact .inl ⟨done, s, rfl⟩
      | some child =>
        by_cases deep : Shallow f levels child
        · obtain ⟨inside, t, run⟩ := copyContents_shallow lookup deep s.ids.next
            { s with ids := s.ids.rest }
          exact .inl ⟨_, t, bind_of_ok (run 0)⟩
        · exact .inr (stuck deep (fun id inside => done ++
            Lifecycle.creating p (copyOf child id parent) entry.2 :: inside) s)
    · rw [lookup, found]
      exact stuck deep (fun id inside => done ++
        Lifecycle.creating p (copyOf child id parent) entry.2 :: inside) s

/-- A copy that may go as deep as there are concepts ends as it would at any greater depth, or it has no
end at any depth. -/
theorem copyContents_ends_or_never {all : Finset ConceptId}
    (lookup : ∀ x, setting.lookup p x = .ok (f x)) (known : ∀ x child, f x = some child → x ∈ all)
    (few : all.card ≤ setting.extent) (source : Concept) (parent : ConceptId) (s : HookState) :
    (∃ cascades t, ∀ more, copyContents setting p (setting.extent + 1 + more) source parent s =
        (.ok cascades, t)) ∨
      ∀ depth, (copyContents setting p depth source parent s).1 = .error .endless := by
  by_cases shallow : ∃ levels, Shallow f levels source
  · obtain ⟨levels, shallow⟩ := shallow
    exact .inl (copyContents_shallow lookup
      ((shallow.within_card known).mono (Nat.succ_le_succ few)) parent s)
  · exact .inr fun depth => copyContents_deep lookup
      (fun within => shallow ⟨depth, within⟩) parent s

end IterationSetup

/-- In the setting there is a concept whose contents cannot be copied in the end. -/
def HookSetting.Endless (setting : HookSetting) : Prop :=
  ∃ p x source parent s, setting.lookup p x = .ok (some source) ∧
    (IterationSetup.copyContents setting p (setting.extent + 1) source parent s).1 = .error .endless

end ConceptLedger
