import LiteFan.Relational.AutoTable
import LiteFan.Relational.Batch
import LiteFan.Relational.Due
import LiteFan.Transition.Run
import LiteFan.Transition.Labelled
import LiteFan.Store
import LiteFan.Consumer
import LiteFan.System
import LiteFan.Invariant
import LiteFan.Effect.Receipts
import LiteFan.Effect.Claims
import LiteFan.Effect.Publishing
import LiteFan.Effect.Identities
import LiteFan.Step
import LiteFan.Preservation
import LiteFan.Lifecycle
import LiteFan.Leases
import LiteFan.Capabilities
import LiteFan.FanOut
import LiteFan.Deletion
import LiteFan.Constraints
import LiteFan.Idempotency
import LiteFan.Effect.Snapshots
import LiteFan.Outstanding
import LiteFan.Polling
import LiteFan.Draining
import LiteFan.Identity
import LiteFan.PublishOrder
import LiteFan.DeliveryCounts
import LiteFan.Pagination
import LiteFan.ReceiptBatches
import LiteFan.ArchiveMoves
import LiteFan.RedriveMoves
import LiteFan.Selection
import LiteFan.Signals
import LiteFan.Wakeups
import LiteFan.Calls
import LiteFan.Alike
import LiteFan.Rounds
import LiteFan.Mirror
import LiteFan.Parallel
import LiteFan.Isolation
import LiteFan.Pruning
import LiteFan.Forecast
import LiteFan.Shortcut
import LiteFan.Owing
import LiteFan.Sleeps
import LiteFan.DrainWakes
import LiteFan.Garbage
import LiteFan.PollAnswers
import LiteFan.LeaseClock
import LiteFan.Registry
import LiteFan.RegistrySize
import LiteFan.Effect.Totals
import LiteFan.Engines
import LiteFan.FanOutOnWrite
import LiteFan.Balance
import LiteFan.Fairness
import LiteFan.Opening
import LiteFan.AtLeastOnce
import LiteFan.CompetingWorkers
import LiteFan.DrainExact
import LiteFan.Relational.Query
import LiteFan.Selects
import LiteFan.EmptyAnswers
import LiteFan.Ranges
import LiteFan.SingleReceipts
import LiteFan.SnapshotReaders
