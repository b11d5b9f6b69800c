import ProxmoxBackup.TransitionSystem
import ProxmoxBackup.LittleEndian
import ProxmoxBackup.Buzhash
import ProxmoxBackup.DynamicChunks
import ProxmoxBackup.UploadPool
import ProxmoxBackup.UploadPoolWalk
import ProxmoxBackup.UploadPoolJobs
import ProxmoxBackup.DynamicIndex
import ProxmoxBackup.Slices
import ProxmoxBackup.PxarFormat
import ProxmoxBackup.PayloadReuse
import ProxmoxBackup.ImageUpload
import ProxmoxBackup.ImageUploadFlow
import ProxmoxBackup.FixedIndex
import ProxmoxBackup.OperationQueue
import ProxmoxBackup.FileTree
import ProxmoxBackup.SetCompare
import ProxmoxBackup.RollbackMoves
import ProxmoxBackup.UndoRollback
import ProxmoxBackup.CrashSafety
import ProxmoxBackup.UndoComplete
import ProxmoxBackup.RollbackRestore
import ProxmoxBackup.RollbackInverse
import ProxmoxBackup.SetExclusion
import ProxmoxBackup.Scheduler
import ProxmoxBackup.CivilDate
import ProxmoxBackup.Schedules
import ProxmoxBackup.LegacyTrigger
import ProxmoxBackup.Leb128
import ProxmoxBackup.Catalog
import ProxmoxBackup.SharedCatalog
import ProxmoxBackup.ExclusiveToken
import ProxmoxBackup.CompareExact
import ProxmoxBackup.RollbackReach
import ProxmoxBackup.GuiUploads
import ProxmoxBackup.GuiUploadRun
import ProxmoxBackup.LexicalPath
import ProxmoxBackup.RestorePaths
import ProxmoxBackup.LinuxSnapshots
import ProxmoxBackup.LinuxSnapshotWaits
import ProxmoxBackup.ImageListing
import ProxmoxBackup.ImageRestore
import ProxmoxBackup.RestoreSelection
import ProxmoxBackup.BuzhashWindow
import ProxmoxBackup.ImplicitTree
import ProxmoxBackup.GoodbyeTable
import ProxmoxBackup.ArchiveNames
import ProxmoxBackup.JobAttempts
import ProxmoxBackup.ScheduleLoops
import ProxmoxBackup.RecordCheck
import ProxmoxBackup.CivilMonths
import ProxmoxBackup.NextRun
import ProxmoxBackup.ParallelExtract
import ProxmoxBackup.RestartExtract
import ProxmoxBackup.Tiling
import ProxmoxBackup.DiskPlan
import ProxmoxBackup.DiskSegments
import ProxmoxBackup.UsedMap
import ProxmoxBackup.BinarySearch
import ProxmoxBackup.GoValues
import ProxmoxBackup.ChunkIndex
import ProxmoxBackup.FixedIndexFile
import ProxmoxBackup.NbdServer
import ProxmoxBackup.NbdCache
import ProxmoxBackup.ChunkReader
import ProxmoxBackup.ChunkFetches
import ProxmoxBackup.ChunkReads
import ProxmoxBackup.FileContent
import ProxmoxBackup.OperationHandles
import ProxmoxBackup.DiskReads
import ProxmoxBackup.CatalogReader
import ProxmoxBackup.Prefetch
import ProxmoxBackup.ReadProgress
import ProxmoxBackup.FreeSpaceMap
import ProxmoxBackup.FreeSpaceSafe
import ProxmoxBackup.ExtFreeSpace
import ProxmoxBackup.Actions
import ProxmoxBackup.PxarWalk
import ProxmoxBackup.PxarWalkSafe
import ProxmoxBackup.RestoreConfined
import ProxmoxBackup.JobsFile
import ProxmoxBackup.NtfsListing
import ProxmoxBackup.RangeUnion
import ProxmoxBackup.PrefetchRanges
import ProxmoxBackup.PaddingBudget
import ProxmoxBackup.ChunkBlob
import ProxmoxBackup.QueueWalk
import ProxmoxBackup.ExfatListing
import ProxmoxBackup.FatListing
import ProxmoxBackup.ByteOrder
import ProxmoxBackup.JsonText
import ProxmoxBackup.CanonicalJson
import ProxmoxBackup.FolderEntries
import ProxmoxBackup.FileReads
import ProxmoxBackup.BlockMap
import ProxmoxBackup.ClusterReads
import ProxmoxBackup.RingBuffer
import ProxmoxBackup.LogPage
import ProxmoxBackup.SelectionSize
import ProxmoxBackup.PartitionTable
import ProxmoxBackup.ShareConnections
import ProxmoxBackup.TokenRotation
import ProxmoxBackup.DiskPins
import ProxmoxBackup.KeyedLists
import ProxmoxBackup.UndeleteScan
import ProxmoxBackup.FirstFit
import ProxmoxBackup.SplitPlan
import ProxmoxBackup.SettingsImport
import ProxmoxBackup.IndentedJson
import ProxmoxBackup.KeyFile
import ProxmoxBackup.KeyText
import ProxmoxBackup.FullReads
import ProxmoxBackup.BoundedReads
import ProxmoxBackup.SecurityDescriptors
import ProxmoxBackup.RunningTotals
import ProxmoxBackup.SpeedLimit
import ProxmoxBackup.ListPlaces
import ProxmoxBackup.TokenDrop
import ProxmoxBackup.ExtendedAttributes
import ProxmoxBackup.NtfsRecord
import ProxmoxBackup.NtfsAttributes
import ProxmoxBackup.RecordSectors
import ProxmoxBackup.RecordLayout
import ProxmoxBackup.LogRotation
import ProxmoxBackup.RotationKept
import ProxmoxBackup.ExtReader
import ProxmoxBackup.ExtReaderSafe
import ProxmoxBackup.LevelSearch
import ProxmoxBackup.ExtListing
import ProxmoxBackup.CopySegments
import ProxmoxBackup.ResilientCopies
import ProxmoxBackup.StitchedImage
import ProxmoxBackup.ArchiveItems
import ProxmoxBackup.ArchiveWriter
import ProxmoxBackup.ArchiveRecords
import ProxmoxBackup.ArchiveWalk
import ProxmoxBackup.ArchiveRoundTrip
import ProxmoxBackup.ArchiveLookup
