import ArcVcs.Spacetime
import ArcVcs.ReorderReplay
import ArcVcs.MergeReplay
import ArcVcs.Isolation
import ArcVcs.Identity
import ArcVcs.SparseReplay
import ArcVcs.Inverse
import ArcVcs.CommutePair
import ArcVcs.Atomicity
import ArcVcs.RestackRecovery
import ArcVcs.Diffedit
import ArcVcs.Revert
import ArcVcs.Gc
import ArcVcs.Readable
import ArcVcs.MoveCommute
import ArcVcs.GraphIndex
import ArcVcs.Verify
import ArcVcs.NativeFetch
import ArcVcs.Persistence
import ArcVcs.Collapse
import ArcVcs.ConcurrentSync
import ArcVcs.NativePull
import ArcVcs.NativeSessions
import ArcVcs.OpLogRuns
import ArcVcs.SyncCodec
import ArcVcs.ItemPatch
import ArcVcs.RevsetMeaning
import ArcVcs.Bisect
import ArcVcs.Transients
import ArcVcs.ServerClosure
import ArcVcs.Frontier
import ArcVcs.AstSnapshot
import ArcVcs.FileLock
import ArcVcs.Blame
import ArcVcs.MissingChanges
import ArcVcs.FetchStops
import ArcVcs.TransferBlobs
import ArcVcs.HttpFetch
import ArcVcs.PushRuns
import ArcVcs.Preimage
import ArcVcs.GitTreeRead
import ArcVcs.GitAncestry
import ArcVcs.CherryPick
import ArcVcs.GitBranches
import ArcVcs.ReorderSort
import ArcVcs.RewriteRollback
import ArcVcs.UndoRedo
import ArcVcs.ConflictSides
import ArcVcs.CommitGraphWalk
import ArcVcs.MergeBases
import ArcVcs.OpLogOrder
import ArcVcs.OpLogTime
import ArcVcs.PartialApply
import ArcVcs.BisectAtomicity
import ArcVcs.Governance
import ArcVcs.Revisions
import ArcVcs.Abandon
import ArcVcs.GitContent
import ArcVcs.WorkTree
import ArcVcs.TreeSnapshot
import ArcVcs.Remapping
import ArcVcs.ViewOverlay
import ArcVcs.MappingConflicts
import ArcVcs.PolicyText
import ArcVcs.Ewah
import ArcVcs.BasicDiffer
import ArcVcs.WeightedLru
import ArcVcs.TinyLru
import ArcVcs.PolicyLoading
import ArcVcs.ViewPersistence
import ArcVcs.StashPop
import ArcVcs.SyncCycles
import ArcVcs.LockContention
import ArcVcs.ItemPaths
import ArcVcs.TextFallback
import ArcVcs.HexIds
import ArcVcs.GitCommitGrammar
import ArcVcs.SparsePaths
import ArcVcs.SpacetimeUri
import ArcVcs.GitPack
import ArcVcs.GraphLanes
import ArcVcs.HeadFrontier
import ArcVcs.TagPatterns
import ArcVcs.PolicyImpact
import ArcVcs.GitTreeParse
import ArcVcs.GitCommitReading
import ArcVcs.GitDelta
import ArcVcs.PackIndex
import ArcVcs.CommitGraphBounds
import ArcVcs.PackResolution
import ArcVcs.PackFaults
import ArcVcs.RevsetText
import ArcVcs.NativePush
import ArcVcs.CasPublish
import ArcVcs.Compaction
import ArcVcs.Absorb
