import ConceptLedger.Query

/-!
Readers on views that show the same. Every read asks its view only through a few calls, so that two
views that answer these alike give the same concepts, the same records and the same journal.
-/

namespace ConceptLedger

/-- Two views that show the same, as far as bounds of a certain kind are asked for. -/
structure ShowsSame {σ τ : Type} [ConceptStore σ] [ConceptStore τ] (B : AsOf → Prop) (v : σ)
    (w : τ) : Prop where
  read : ∀ p t ids, ConceptStore.read w p t ids = ConceptStore.read v p t ids
  readCached : ∀ p ids, ConceptStore.readCached w p ids = ConceptStore.readCached v p ids
  statesAsOf : ∀ p ids bound, B bound →
    ConceptStore.statesAsOf w p ids bound = ConceptStore.statesAsOf v p ids bound
  history : ∀ p id, ConceptStore.history w p id = ConceptStore.history v p id
  extent : ConceptStore.extent w = ConceptStore.extent v

namespace Reader

variable {σ τ : Type}

/-- The reader on another view. -/
def onto (r : Reader σ) (w : τ) : Reader τ := ⟨w, r.gate, r.actor, r.partition, r.options⟩

variable [ConceptStore σ] [ConceptStore τ] {B : AsOf → Prop} {r : Reader σ} {w : τ}
  (same : ShowsSame B r.view w)

include same

theorem load_onto (t : Option ConceptType) (ids : List ConceptId) :
    (r.onto w).load t ids = r.load t ids := by
  simp only [load, onto, same.read, same.readCached]

theorem find?_onto (p : Partition) (id : ConceptId) :
    ConceptStore.find? w p id = ConceptStore.find? r.view p id := by
  rw [ConceptStore.find?, ConceptStore.find?, same.read]

theorem contextOf_onto (c : Concept) : (r.onto w).contextOf c = r.contextOf c := by
  unfold contextOf
  cases c.container with
  | none => rfl
  | some id => simp only [onto, find?_onto same]

theorem siftEach_onto (security : Option SecurityContext) (cs : List Concept) :
    (r.onto w).siftEach security cs = r.siftEach security cs := by
  induction cs with
  | nil => rfl
  | cons c rest ih =>
    simp only [siftEach, ih, contextOf_onto same]
    rfl

theorem shallow_onto (ids : List ConceptId) (security : Option SecurityContext) :
    (r.onto w).shallow ids security = r.shallow ids security := by
  simp only [shallow, load_onto same, siftEach_onto same]

theorem resolve_onto (t : ConceptType) (ids : List ConceptId) (security : SecurityContext) :
    (r.onto w).resolve t ids security = r.resolve t ids security := by
  simp only [resolve, load_onto same]
  rfl

theorem children_onto (parent : Concept) : (r.onto w).children parent = r.children parent := by
  simp only [children, contextOf_onto same]
  rfl

theorem accept_onto : (r.onto w).accept = r.accept := by
  funext s c
  simp only [accept, children_onto same]

theorem descend_onto (turns : Nat) (s : Progress) : (r.onto w).descend turns s = r.descend turns s := by
  induction turns generalizing s with
  | zero => rfl
  | succ turns ih => simp only [descend, resolve_onto same, accept_onto same, ih]

theorem deep_onto (ids : List ConceptId) (security : Option SecurityContext) :
    (r.onto w).deep ids security = r.deep ids security := by
  simp only [deep, shallow_onto same, accept_onto same, descend_onto same]
  rw [show ConceptStore.extent (r.onto w).view = ConceptStore.extent r.view from same.extent]

theorem asOf_onto (ids : List ConceptId) {bound : AsOf} (asked : B bound) :
    (r.onto w).asOf ids bound = r.asOf ids bound := by
  have states : ∀ p ids, ConceptStore.statesAsOf w p ids bound =
      ConceptStore.statesAsOf r.view p ids bound := fun p ids => same.statesAsOf p ids bound asked
  have visible : ∀ known, (r.onto w).visibleAsOf known bound = r.visibleAsOf known bound := by
    intro known
    funext id
    simp only [visibleAsOf, containerAsOf, onto, states]
    rfl
  simp only [asOf, visible]
  simp only [onto, states]

theorem history_onto (id : ConceptId) : (r.onto w).history id = r.history id := by
  simp only [history, contextOf_onto same]
  simp only [onto, same.history]
  rfl

end Reader

end ConceptLedger
