import Orly.Mutation
import Orly.MutationLaws
import Orly.MergeRuns
import Orly.PresentWalker
import Orly.KeyHistory
import Orly.DeferredFold
import Orly.ReadFoldOrder
import Orly.MixedMutators
import Orly.HistoryRefinement
import Orly.CompactionFold
import Orly.RetainingFold
import Orly.LittleEndian
import Orly.WalFormat
import Orly.WalRing
import Orly.EventRuns
import Orly.GreedyBatches
import Orly.WalRingLaws
import Orly.Wal
import Orly.WalPromise
import Orly.WalDrain
import Orly.WalScan
import Orly.WalScanLaws
import Orly.SealedAhead
import Orly.CrashDisk
import Orly.GrownLists
import Orly.WalPages
import Orly.WalSystem
import Orly.WalHistory
import Orly.WalSystemSteps
import Orly.WalProgress
import Orly.WalHeads
import Orly.WalCrash
import Orly.WalRecovery
import Orly.CrashRecovery
import Orly.ByteReader
import Orly.OperationAnswers
import Orly.FoldRules
import Orly.OperationSnapshot
import Orly.OperationReload
import Orly.OperationRuns
import Orly.OperationOnce
import Orly.FileMap
import Orly.FileService
import Orly.FileHeld
import Orly.FileWrites
import Orly.FileServiceRuns
import Orly.FileServiceSteps
import Orly.FileServiceCrash
import Orly.TailMerge
import Orly.TailMergeLaws
import Orly.TailMergeReads
import Orly.RepoFiles
import Orly.RepoFilesLaws
import Orly.FoldFileLaws
import Orly.KeyDiscipline
import Orly.RepoFilesReads
import Orly.RepoFilesReload
import Orly.HashIndex
import Orly.HashIndexLaws
import Orly.HashIndexLookup
import Orly.BitRanges
import Orly.BlockMaps
import Orly.BlockMapsLaws
import Orly.BlockMapsExtents
import Orly.BlockMapsRuns
import Orly.StripedVolume
import Orly.StripedVolumeLaws
import Orly.StripeRuns
import Orly.StripedDiscards
import Orly.DurableFiles
import Orly.DurableFilesLaws
import Orly.DurableManager
import Orly.DurableManagerLaws
import Orly.DurableLoads
import Orly.DurableNewest
import Orly.DurableRecords
import Orly.OperationBudget
import Orly.OperationRoundTrip
import Orly.VolumeManager
import Orly.VolumeManagerLaws
import Orly.VolumeManagerRuns
import Orly.VolumeGivesBack
import Orly.SortedMap
import Orly.MetaRecord
import Orly.MetaRecordLaws
import Orly.MetaRecordReplay
import Orly.MetaRecordHash
import Orly.ForkWatch
import Orly.ForkWatchConflicts
import Orly.ForkWatchRuns
import Orly.PromotionFence
import Orly.BacklogRoom
import Orly.WalGroups
import Orly.RepoCopies
import Orly.BlockVec
