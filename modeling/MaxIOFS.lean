import MaxIOFS.ByteString
import MaxIOFS.OrderedStore
import MaxIOFS.Effects
import MaxIOFS.Runs
import MaxIOFS.FileTree
import MaxIOFS.StagedCommit
import MaxIOFS.PutDeleteSchedule
import MaxIOFS.ReadSchedule
import MaxIOFS.RealtimeReplication
import MaxIOFS.Records
import MaxIOFS.MetadataStore
import MaxIOFS.Filesystem
import MaxIOFS.ObjectManager
import MaxIOFS.ObjectMetadata
import MaxIOFS.Multipart
import MaxIOFS.RecordChanges
import MaxIOFS.Ledger
import MaxIOFS.VersionHistory
import MaxIOFS.VersionMoves
import MaxIOFS.ManagerRuns
import MaxIOFS.TextRuns
import MaxIOFS.RangeRequests
import MaxIOFS.LatestVersion
import MaxIOFS.FileFrame
import MaxIOFS.ManagerFiles
import MaxIOFS.BucketManager
import MaxIOFS.RetentionLaw
import MaxIOFS.StoredFiles
import MaxIOFS.StoredObjects
import MaxIOFS.PutRaces
import MaxIOFS.SidecarRaces
import MaxIOFS.ObjectReads
import MaxIOFS.KeyFrame
import MaxIOFS.Overwrites
import MaxIOFS.Listing
import MaxIOFS.Pagination
import MaxIOFS.FlatPages
import MaxIOFS.DelimitedPages
import MaxIOFS.TagSearch
import MaxIOFS.TagIndex
import MaxIOFS.VersionPages
import MaxIOFS.VersionDeletion
import MaxIOFS.PartFiles
import MaxIOFS.Completions
import MaxIOFS.Accounts
import MaxIOFS.Inventory
import MaxIOFS.BucketCounters
import MaxIOFS.TenantUsage
import MaxIOFS.SetterFrames
import MaxIOFS.Envelopes
import MaxIOFS.Calendar
import MaxIOFS.S3Handler
import MaxIOFS.ConditionalCreates
import MaxIOFS.LockedPuts
import MaxIOFS.UpdateRaces
import MaxIOFS.CreationPaths
import MaxIOFS.DefaultRetention
import MaxIOFS.Hex
import MaxIOFS.KekStore
import MaxIOFS.KekConsistency
import MaxIOFS.MultipartSteps
import MaxIOFS.PartRaces
import MaxIOFS.StoreCalls
import MaxIOFS.AbortRaces
import MaxIOFS.BucketSettings
import MaxIOFS.SettingRaces
import MaxIOFS.NameRaces
import MaxIOFS.DeletionRaces
import MaxIOFS.UploadPages
import MaxIOFS.StoreKeys
import MaxIOFS.Recalculation
import MaxIOFS.FileOps
import MaxIOFS.CleanupRaces
import MaxIOFS.DeletionLog
import MaxIOFS.Tombstones
import MaxIOFS.ScrubCycle
import MaxIOFS.AntiEntropy
import MaxIOFS.Fanout
import MaxIOFS.Resurrection
import MaxIOFS.InitialSync
import MaxIOFS.ReplicaOrder
import MaxIOFS.MetadataFanout
import MaxIOFS.RowDeletion
import MaxIOFS.RecordPush
import MaxIOFS.NodeHealth
import MaxIOFS.PartitionWrites
import MaxIOFS.Migration
import MaxIOFS.AccountSync
import MaxIOFS.RuleScheduler
import MaxIOFS.WildcardMatch
import MaxIOFS.RuleLocks
import MaxIOFS.BucketLocation
import MaxIOFS.CircuitBreaker
import MaxIOFS.RateLimit
import MaxIOFS.JsonRecords
