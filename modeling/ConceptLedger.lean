import ConceptLedger.Hook.Script
import ConceptLedger.Main
import ConceptLedger.Proofs.Containment.Integrity
import ConceptLedger.Proofs.Lifecycle.Iterations
import ConceptLedger.Proofs.Store.Audit
import ConceptLedger.Proofs.Store.TimeTravel
import ConceptLedger.Store.Memory
import ConceptLedger.Store.Migration
import ConceptLedger.Store.Tables.Edit
import ConceptLedger.Wire.Config
import ConceptLedger.Wire.Failure
import ConceptLedger.Wire.StoreCall
import ConceptLedger.Proofs.Batch.Cut
import ConceptLedger.Proofs.Store.Discipline
import ConceptLedger.Proofs.Store.Answer
import ConceptLedger.Proofs.Store.LostUpdate
import ConceptLedger.Proofs.Step.Alike
import ConceptLedger.Proofs.Batch.Alike
import ConceptLedger.Proofs.Batch.Recording
import ConceptLedger.Proofs.Store.Rejection
import ConceptLedger.Proofs.Text.Digits
import ConceptLedger.Proofs.Data.SortedMap
import ConceptLedger.Proofs.Wire.Names
import ConceptLedger.Proofs.Wire.Concept
import ConceptLedger.Proofs.Tables.Rows
import ConceptLedger.Proofs.Tables.Mirror
import ConceptLedger.Proofs.Tables.Views
import ConceptLedger.Proofs.Tables.Calls
import ConceptLedger.Proofs.Tables.Batches
import ConceptLedger.Proofs.Read.Alike
import ConceptLedger.Proofs.Tables.Stores
import ConceptLedger.Proofs.Tables.Agreement
import ConceptLedger.Proofs.Tables.Codec
import ConceptLedger.Proofs.Read.Descent
import ConceptLedger.Proofs.Store.Lists
import ConceptLedger.Proofs.Lifecycle.Selection
import ConceptLedger.Proofs.Lifecycle.Counterparts
import ConceptLedger.Proofs.Lifecycle.Removal
import ConceptLedger.Proofs.Read.Concealment
import ConceptLedger.Proofs.Read.Disclosure
import ConceptLedger.Proofs.Tables.Instants
import ConceptLedger.Proofs.Read.Narrowing
import ConceptLedger.Proofs.Read.Orphans
import ConceptLedger.Proofs.Read.Least
import ConceptLedger.Proofs.Lifecycle.OneWay
import ConceptLedger.Proofs.Store.Isolation
import ConceptLedger.Proofs.Store.Deletion
import ConceptLedger.Proofs.Store.Neighbourhood
import ConceptLedger.Proofs.Store.CarryForward
import ConceptLedger.Proofs.Batch.Causes
import ConceptLedger.Proofs.Batch.Schedule
import ConceptLedger.Proofs.Store.Associations
import ConceptLedger.Proofs.Store.WriteBack
import ConceptLedger.Proofs.Instant.Reading
import ConceptLedger.Proofs.Wire.RoundTrip
import ConceptLedger.Proofs.Text.Spellings
import ConceptLedger.Proofs.Store.Migrations
