import ScosSensor.Runs
import ScosSensor.Heapq
import ScosSensor.PendingTasks
import ScosSensor.Consumption
import ScosSensor.Database
import ScosSensor.ScheduledTimes
import ScosSensor.DiskLimit
import ScosSensor.ApiRequests
import ScosSensor.TaskExecution
import ScosSensor.SchedulerThread
import ScosSensor.Interrupts
import ScosSensor.AsyncCallback
import ScosSensor.EntryRows
import ScosSensor.Cancellation
import ScosSensor.ApiUpdates
import ScosSensor.Counters
import ScosSensor.LiveTasks
import ScosSensor.TaskIds
import ScosSensor.IssuedTimes
import ScosSensor.StoredMarks
import ScosSensor.CrashSafety
import ScosSensor.EntryDeletion
import ScosSensor.FailureIsolation
import ScosSensor.CertificateAuth
import ScosSensor.SensorLocation
import ScosSensor.DataFiles
import ScosSensor.OrphanedFiles
import ScosSensor.EncryptionFlag
import ScosSensor.Archives
import ScosSensor.RemovedResults
import ScosSensor.CreatedIds
import ScosSensor.TaskIdGaps
import ScosSensor.Retention
import ScosSensor.EntryEdits
import ScosSensor.PriorityOrder
import ScosSensor.FailureCounter
import ScosSensor.StaleEntries
import ScosSensor.FailureOrder
import ScosSensor.LocationSaves
import ScosSensor.Doubles
import ScosSensor.Timestamps
import ScosSensor.EntrySerializer
import ScosSensor.EntryViews
import ScosSensor.StopTimes
import ScosSensor.StorableEntries
import ScosSensor.ReadOnlyColumns
import ScosSensor.CheckedRows
import ScosSensor.ReadModifyWrite
import ScosSensor.UpcomingTasks
import ScosSensor.QueueOperations
import ScosSensor.AscendingSequences
import ScosSensor.QueueRemoval
import ScosSensor.TimePartition
import ScosSensor.DeleteRequests
import ScosSensor.LocationSignals
import ScosSensor.ProtectedDeletes
import ScosSensor.Constraints
import ScosSensor.FinishedResults
import ScosSensor.Latches
import ScosSensor.HealthMarks
import ScosSensor.Autoheal
import ScosSensor.RouteTables
import ScosSensor.ApiViews
import ScosSensor.Hyperlinks
import ScosSensor.Accounts
import ScosSensor.AccountRequests
import ScosSensor.AccountTokens
import ScosSensor.AccountRights
import ScosSensor.BoundedWaiting
import ScosSensor.StopResponse
import ScosSensor.StatusView
import ScosSensor.UpcomingView
import ScosSensor.MinimumDurations
import ScosSensor.LoopPacing
import ScosSensor.Raising
import ScosSensor.Initialization
import ScosSensor.StartRecovery
import ScosSensor.LocationStarts
