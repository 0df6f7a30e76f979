import SochDB.RecoveryProcedures
import SochDB.PointInTime
import SochDB.SealedLog
import SochDB.CrashSessions
import SochDB.Interchangeable
import SochDB.CrashRecovery
import SochDB.SlotOwners
import SochDB.FirstCommitter
import SochDB.Serializability
import SochDB.SnapshotAtomicity
import SochDB.GcVisibility
import SochDB.ConcurrentChains
import SochDB.GroupCommit
import SochDB.FrontEndAgreement
import SochDB.TablePermissions
import SochDB.ThreeValuedLogic
import SochDB.AggregateExactness
import SochDB.IntegerArithmetic
import SochDB.PlaceholderChecks
import SochDB.JoinAgreement
import SochDB.SchemaChanges
import SochDB.ChangeFeeds
import SochDB.QueueLeases
import SochDB.TaskLifecycle
import SochDB.AtomicClaims
import SochDB.ScopedAccess
import SochDB.CapabilityTokens
import SochDB.PolicyEnforcement
import SochDB.MandatoryLiterals
import SochDB.RowKeyUniqueness
import SochDB.ChainHistories
import SochDB.BloomVerdicts
import SochDB.ColumnIsolation
import SochDB.GraphRefinement
import SochDB.ReaderTable
import SochDB.EpochCollection
import SochDB.BitemporalQueries
import SochDB.ManifestCrashes
import SochDB.LikePatterns
import SochDB.CommitTimestamps
import SochDB.HybridClocks
import SochDB.KeyArena
import SochDB.BlockStore
