import ConceptLedger.Batch.Run
import ConceptLedger.Store.Memory

/-!
Drafts. The draft of a running batch is what it has made of the store so far, with the records it
keeps of its own changes. Every step of a batch changes the draft in one of four ways: it takes a
revision, puts a concept in place, drops one, or leaves everything as it is.
-/

namespace ConceptLedger.Batch

open Step

/-- A running batch without its supply of identifiers and its reports. -/
structure Draft where
  view : Memory.View
  touched : List Touch
  removed : SortedMap Address ConceptType
  allocated : SortedMap Partition UInt64

/-- What a running batch has made of the store so far. -/
def State.draft (s : State Memory.View) : Draft := ⟨s.view, s.touched, s.removed, s.allocated⟩

namespace Draft

/-- The contents as the batch sees them. -/
def contents (d : Draft) : Memory.Contents := d.view.contents

/-- The concept at an address as the batch sees it. -/
def find? (d : Draft) (p : Partition) (id : ConceptId) : Option Concept := d.contents.find? p id

/-- Whether an address was touched. -/
def isTouched (d : Draft) (a : Address) : Bool := d.touched.any fun t => t.address = a

/-- The draft with an address touched. -/
def mark (d : Draft) (a : Address) (existed : Bool) : Draft :=
  if d.isTouched a then d else { d with touched := d.touched ++ [⟨a, existed⟩] }

/-- The draft with other contents. -/
def edit (d : Draft) (f : Memory.Contents → Memory.Contents) : Draft :=
  { d with view := { d.view with contents := f d.view.contents } }

/-- The draft with a concept in place, new or over a former state. -/
def put (d : Draft) (p : Partition) (c : Concept) (existed : Bool) : Draft :=
  (d.mark ⟨p, c.id⟩ existed).edit (·.put p c)

/-- The draft without a concept, whose type is noted down. -/
def drop (d : Draft) (p : Partition) (entry : ConceptId × ConceptType) : Draft :=
  { (d.mark ⟨p, entry.1⟩ true).edit (·.drop p entry.1) with
    removed := d.removed.insert ⟨p, entry.1⟩ entry.2 }

/-- The revision of the batch in a partition, taken or still to be taken. -/
def revision (d : Draft) (p : Partition) : UInt64 :=
  (d.allocated.find? p).getD (d.contents.counter p + 1)

/-- The draft with the revision of a partition taken. -/
def allot (d : Draft) (p : Partition) : Draft :=
  match d.allocated.find? p with
  | some _ => d
  | none =>
    { d.edit (·.count p (d.contents.counter p + 1)) with
      allocated := d.allocated.insert p (d.contents.counter p + 1) }

@[simp] theorem find?_mark (d : Draft) (a : Address) (existed : Bool) (p : Partition)
    (id : ConceptId) : (d.mark a existed).find? p id = d.find? p id := by
  unfold mark
  split <;> rfl

theorem find?_put (d : Draft) (p q : Partition) (c : Concept) (existed : Bool) (id : ConceptId) :
    (d.put p c existed).find? q id = if q = p ∧ id = c.id then some c else d.find? q id := by
  show ((d.mark ⟨p, c.id⟩ existed).contents.put p c).find? q id = _
  rw [Memory.Contents.find?_put, ← d.find?_mark ⟨p, c.id⟩ existed q id]
  rfl

theorem find?_drop (d : Draft) (p q : Partition) (entry : ConceptId × ConceptType)
    (id : ConceptId) :
    (d.drop p entry).find? q id = if q = p ∧ id = entry.1 then none else d.find? q id := by
  show ((d.mark ⟨p, entry.1⟩ true).contents.drop p entry.1).find? q id = _
  rw [Memory.Contents.find?_drop, ← d.find?_mark ⟨p, entry.1⟩ true q id]
  rfl

@[simp] theorem find?_allot (d : Draft) (p q : Partition) (id : ConceptId) :
    (d.allot p).find? q id = d.find? q id := by
  unfold allot
  split <;> rfl

/-- Once taken, the revision of a partition is on record. -/
theorem allocated_allot (d : Draft) (p : Partition) :
    (d.allot p).allocated.find? p = some (d.revision p) := by
  unfold allot revision
  cases taken : d.allocated.find? p with
  | some r => simpa using taken
  | none => simp

end Draft

variable {env : Setting} {p : Partition} {s t : State Memory.View}

theorem onView_ok {α : Type} {x : Step Memory.View α} {a : α} (run : onView x s = (.ok a, t)) :
    ∃ v, x s.view = (.ok a, v) ∧ t = { s with view := v } := by
  obtain ⟨v, inner, rfl⟩ := zoom_eq_ok_iff.mp run
  exact ⟨v, inner, rfl⟩

theorem find_ok {id : ConceptId} {found : Option Concept} (run : find p id s = (.ok found, t)) :
    found = s.draft.find? p id ∧ s = t := by
  obtain ⟨looked, rfl⟩ := look_eq_ok_iff.mp run
  rw [Memory.View.find?_eq] at looked
  exact ⟨(Except.ok.inj looked).symm, rfl⟩

theorem require_ok {id : ConceptId} {c : Concept} (run : require p id s = (.ok c, t)) :
    s.draft.find? p id = some c ∧ s = t := by
  obtain ⟨found, _, looked, rest⟩ := bind_eq_ok_iff.mp run
  obtain ⟨stored, rfl⟩ := find_ok looked
  cases found with
  | none => exact absurd rest fault_ne_ok
  | some c' =>
    obtain ⟨rfl, rfl⟩ := pure_eq_ok_iff.mp rest
    exact ⟨stored.symm, rfl⟩

theorem containerOf_ok {c : Concept} {container : Option Concept}
    (run : containerOf p c s = (.ok container, t)) :
    container = c.container.bind (s.draft.find? p) ∧ s = t := by
  unfold containerOf at run
  cases named : c.container with
  | some id =>
    rw [named] at run
    exact find_ok run
  | none =>
    rw [named] at run
    obtain ⟨rfl, rfl⟩ := pure_eq_ok_iff.mp run
    exact ⟨rfl, rfl⟩

theorem touch_ok {id : ConceptId} {existed : Bool} {u : Unit}
    (run : touch p id existed s = (.ok u, t)) : t.draft = s.draft.mark ⟨p, id⟩ existed := by
  rw [← modify_eq_ok_iff.mp run]
  show _ = if s.isTouched ⟨p, id⟩ then _ else _
  split <;> rfl

/-- A revision that is newly taken lies above the counter. -/
theorem nextRevision_ok {v w : Memory.View} {r : UInt64}
    (run : ConceptStore.nextRevision p v = (.ok r, w)) :
    r = v.contents.counter p + 1 ∧ v.contents.counter p < r ∧
      w = { v with contents := v.contents.count p r } := by
  obtain ⟨committed, counter, rest⟩ := look_bind_eq_ok_iff.mp run
  obtain rfl : v.contents.counter p = committed := Except.ok.inj counter
  obtain ⟨next, _, raised, rest⟩ := bind_eq_ok_iff.mp rest
  obtain ⟨value, -, rfl⟩ := Memory.View.raiseRevision_ok raised
  obtain ⟨checked, rfl⟩ := lift_eq_ok_iff.mp rest
  unfold ConceptStore.checkedRevision at checked
  split at checked
  · cases checked
  · rename_i above
    cases checked
    exact ⟨value, by simpa using above, rfl⟩

theorem ownRevision_ok {r : UInt64} (run : ownRevision p s = (.ok r, t)) :
    r = s.draft.revision p ∧ t.draft = s.draft.allot p ∧
      (s.draft.allocated.find? p = none → s.draft.contents.counter p < s.draft.revision p) := by
  obtain ⟨taken, _, asked, rest⟩ := bind_eq_ok_iff.mp run
  obtain ⟨known, rfl⟩ := gets_eq_ok_iff.mp asked
  have known : s.draft.allocated.find? p = taken := known
  cases taken with
  | some own =>
    obtain ⟨rfl, rfl⟩ := pure_eq_ok_iff.mp rest
    simp [Draft.revision, Draft.allot, known]
  | none =>
    obtain ⟨next, _, taken, rest⟩ := bind_eq_ok_iff.mp rest
    obtain ⟨_, _, noted, rest⟩ := bind_eq_ok_iff.mp rest
    obtain ⟨rfl, rfl⟩ := pure_eq_ok_iff.mp rest
    obtain ⟨v, raised, rfl⟩ := onView_ok taken
    obtain ⟨value, above, rfl⟩ := nextRevision_ok raised
    rw [← modify_eq_ok_iff.mp noted]
    have value : next = s.draft.contents.counter p + 1 := value
    have above : s.draft.contents.counter p < next := above
    refine ⟨by simp [Draft.revision, known, value], ?_, fun _ => ?_⟩
    · simp only [Draft.allot, known, ← value]
      rfl
    · simpa only [Draft.revision, known, Option.getD_none, ← value] using above

theorem replace_ok {c : Concept} {u : Unit} (run : replace p c s = (.ok u, t)) :
    (s.draft.find? p c.id).isSome ∧ t.draft = s.draft.edit (·.put p c) := by
  obtain ⟨updated, _, tried, rest⟩ := bind_eq_ok_iff.mp run
  obtain ⟨v, written, rfl⟩ := onView_ok tried
  split at rest
  · rename_i done
    cases done
    obtain ⟨-, rfl⟩ := pure_eq_ok_iff.mp rest
    obtain ⟨present, rfl⟩ := Memory.View.update_ok written
    exact ⟨present, rfl⟩
  · exact absurd rest fault_ne_ok

/-- Hooks read the store and never write to it. -/
theorem invoke_draft {security : SecurityContext} {occasion : Occasion} {c : Concept}
    {container : Option Concept} {r : Except Failure (Concept × HookOutcome)}
    (run : invoke env p security occasion c container s = (r, t)) : t.draft = s.draft := by
  unfold invoke at run
  split at run <;> cases run <;> rfl

end ConceptLedger.Batch
