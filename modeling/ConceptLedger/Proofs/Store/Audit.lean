import ConceptLedger.Proofs.Store.History

/-!
The log as an audit of the store. Every batch that succeeds, under whatever hooks and gate, adds
exactly one record for each address whose state it changed, and its outcome lists the same
changes. A concept that a batch creates and removes again leaves no trace.
-/

namespace ConceptLedger.Memory

open Batch

/-- After every history, a batch that succeeds accounts for exactly what it changed. -/
theorem submit_audit (visits : List Visit) (policy : Policy) (request : BatchRequest)
    (now : Instant) (ids : IdSupply) (outcome : BatchOutcome)
    (succeeds : (policy.submit request now ids (Database.after visits)).1.result = .ok outcome) :
    ∃ changed records, Audit (Database.after visits).contents
      (policy.submit request now ids (Database.after visits)).2.contents outcome changed records := by
  rcases submit_contents policy request now ids (Database.after visits) with
    ⟨outcome', answered, committed⟩ | ⟨⟨f, refused⟩, -⟩
  · cases succeeds.symm.trans answered
    exact committed.audit (sound_after visits).stamped
  · cases succeeds.symm.trans refused

/-- A library of the site directory that was founded. -/
def libraryOf (id : ConceptId) : Concept :=
  { id, conceptType := .siteReferenceDataLibrary, container := some (.ofNat 2) }

/-- The visit that creates two libraries. -/
def stocking : Visit :=
  .batch {} { foundingRequest with
    operations := [.create (libraryOf (.ofNat 3)) none, .create (libraryOf (.ofNat 4)) none] }
    default ⟨.ofNat, 5⟩

/-- A request that changes the first of them and removes the second, after it has created a third and
removed it again. -/
def restocking : BatchRequest :=
  { foundingRequest with
    operations := [
      .create (libraryOf (.ofNat 5)) none,
      .update { libraryOf (.ofNat 3) with
        revisionNumber := 2
        properties := SortedMap.empty.insert "name" (.text "units") },
      .delete (.ofNat 5) .siteReferenceDataLibrary,
      .delete (.ofNat 4) .siteReferenceDataLibrary] }

/-- It accounts for the first two, and for the site directory that listed the second, but not for the
third. -/
theorem submit_audit_restocking : ∃ outcome changed records,
    Audit (Database.after [founding, stocking]).contents
      (({} : Policy).submit restocking default ⟨.ofNat, 6⟩
        (Database.after [founding, stocking])).2.contents outcome changed records ∧
    outcome.concepts.map (·.id) = [.ofNat 2, .ofNat 3] ∧ outcome.removed = [.ofNat 4] ∧
    outcome.revision = some 3 ∧ ⟨.siteDirectory, .ofNat 5⟩ ∉ changed := by
  have answered : (({} : Policy).submit restocking default ⟨.ofNat, 6⟩
      (Database.after [founding, stocking])).1.result.toOption.map
        (fun outcome => (outcome.concepts.map (·.id), outcome.removed, outcome.revision)) =
      some ([.ofNat 2, .ofNat 3], [.ofNat 4], some 3) := by
    decide +kernel
  obtain ⟨outcome, succeeds, told⟩ := Option.map_eq_some_iff.mp answered
  obtain ⟨concepts, told⟩ := Prod.mk.inj told
  obtain ⟨removed, revision⟩ := Prod.mk.inj told
  obtain ⟨changed, records, audit⟩ := submit_audit [founding, stocking] {} restocking default
    ⟨.ofNat, 6⟩ outcome (ok_of_toOption succeeds)
  refine ⟨outcome, changed, records, audit, concepts, removed, revision, fun traced => ?_⟩
  refine (audit.exact _).mp traced ?_
  decide +kernel

end ConceptLedger.Memory
