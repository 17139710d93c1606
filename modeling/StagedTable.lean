import StagedTable.Issues.Steps
import StagedTable.Session.Start
import StagedTable.Proofs.Changes
import StagedTable.Proofs.TableCalls
import StagedTable.Proofs.Steps
import StagedTable.Proofs.Turns
import StagedTable.Proofs.Serializability
import StagedTable.Proofs.Snapshots
import StagedTable.Proofs.Outcomes
import StagedTable.Proofs.ColumnIds
import StagedTable.Proofs.Transactions
import StagedTable.Proofs.Growth
import StagedTable.Proofs.Sessions
import StagedTable.Proofs.Exchanges
import StagedTable.Proofs.Previews
import StagedTable.Proofs.Sent
import StagedTable.Proofs.RetiredIds
import StagedTable.Proofs.FirstFailure
import StagedTable.Proofs.FirstMember
import StagedTable.Proofs.HandleCalls
import StagedTable.Proofs.Faults
import StagedTable.Proofs.Isolation
import StagedTable.Proofs.Independence
import StagedTable.Proofs.ReservedKey
import StagedTable.Proofs.Retry
import StagedTable.Proofs.SnapshotRegistry
import StagedTable.Proofs.SchemaPreview
import StagedTable.Proofs.SchemaReport
import StagedTable.Proofs.WellFormedSchemas
import StagedTable.Proofs.Journal
import StagedTable.Proofs.AuditTrail
import StagedTable.Proofs.StagedProperties
import StagedTable.Proofs.StagedLocations
import StagedTable.Proofs.TableLocations
import StagedTable.Proofs.LocationCalls
import StagedTable.Proofs.Repeats
import StagedTable.Proofs.Creations
import StagedTable.Proofs.Reports
