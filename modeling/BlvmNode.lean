import BlvmNode.CompactionErrors
import BlvmNode.DiskReopen
import BlvmNode.ConcurrentMerge
import BlvmNode.CallerCoins
import BlvmNode.CheckpointSeed
import BlvmNode.ExportExactness
import BlvmNode.CrashPoints
import BlvmNode.DependencyGraph
import BlvmNode.RefusedAdmission
import BlvmNode.ReplacementFees
import BlvmNode.PackageRollback
import BlvmNode.MerkleSoundness
import BlvmNode.CompactLossless
import BlvmNode.ForkPool
import BlvmNode.PresyncGate
import BlvmNode.LegacyAnswers
import BlvmNode.LegacyDrain
import BlvmNode.ReplayProtection
import BlvmNode.OrderedBridge
import BlvmNode.AddressIndex
import BlvmNode.FilterHeaders
import BlvmNode.BodyRoundTrip
import BlvmNode.RollingMuHash
import BlvmNode.PruneRuns
import BlvmNode.ForkBodyHold
import BlvmNode.ForkChains
import BlvmNode.CoreNumbers
import BlvmNode.FeederBytes
import BlvmNode.HeaderReplies
import BlvmNode.ReplacementChains
import BlvmNode.RetireDispatcher
import BlvmNode.StoredHeights
import BlvmNode.CachedCoins
import BlvmNode.ParallelDownload
import BlvmNode.ConflictClusters
