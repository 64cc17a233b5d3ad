import Oifs.Bytes
import Oifs.SuperBlock
import Oifs.Layout
import Oifs.MetadataOp
import Oifs.Coalesce
import Oifs.Frame
import Oifs.CircularLog
import Oifs.JournalRing
import Oifs.RingRecovery
import Oifs.RingAppend
import Oifs.RingRuns
import Oifs.SnapshotCheckpoint
import Oifs.Inode
import Oifs.BitStore
import Oifs.Bitmap
import Oifs.InodeFormat
import Oifs.ApplyOp
import Oifs.DiskJournal
import Oifs.Migration
import Oifs.MigrationRuns
import Oifs.PointerForest
import Oifs.Volume
import Oifs.BlockTree
import Oifs.GetOrAlloc
import Oifs.Payload
import Oifs.Codec
import Oifs.Chunk
import Oifs.ChunkFile
import Oifs.ChunkExtents
import Oifs.ChunkLeaves
import Oifs.ChunkTree
import Oifs.ReadPath
import Oifs.WritePath
import Oifs.Truncate
import Oifs.FileContent
import Oifs.WriteContent
import Oifs.WriteStages
import Oifs.ChunkContent
import Oifs.ChunkedFile
import Oifs.ChunkedWrite
import Oifs.ChunkedTruncate
import Oifs.ChunkRuns
import Oifs.StagedCalls
import Oifs.JournaledChunks
import Oifs.WriteRace
import Oifs.History
import Oifs.Ipc
import Oifs.Handshake
import Oifs.SessionCalls
import Oifs.RemoteCalls
import Oifs.Retry
import Oifs.Mountable
import Oifs.TruncateRuns
import Oifs.FsckSound
import Oifs.AllocSim
import Oifs.JournaledCalls
import Oifs.ReadAgreement
import Oifs.NoSpace
import Oifs.EncryptedChunk
import Oifs.PruneStale
import Oifs.PointerOverlay
import Oifs.StagedAlloc
import Oifs.RingReplay
import Oifs.RedoConfined
import Oifs.RedoRestart
import Oifs.AllocatorBounds
import Oifs.DirectoryCalls
import Oifs.AllocFrame
import Oifs.CreateFailure
import Oifs.PartialStore
import Oifs.FailedStore
import Oifs.WriteFailure
import Oifs.SealedFile
import Oifs.WriteSplice
import Oifs.StartWrite
import Oifs.PieceReader
import Oifs.FramedStream
import Oifs.XorLinear
import Oifs.ShiftRegister
import Oifs.Checksum
import Oifs.InPlace
import Oifs.Filters
import Oifs.FilterInverse
import Oifs.StoredNames
import Oifs.DirectoryBlocks
import Oifs.DirectoryRuns
import Oifs.ContextBinding
import Oifs.BitScan
import Oifs.BitmapScan
import Oifs.Relocation
import Oifs.BlockMoves
import Oifs.UringDriver
import Oifs.UringBytes
import Oifs.UringReads
import Oifs.IoEngine
import Oifs.ReadExtents
import Oifs.BackendCalls
import Oifs.ReadBackends
import Oifs.Interleaving
import Oifs.AutoDefrag
import Oifs.AutoDefragWorkers
import Oifs.AutoDefragCalls
import Oifs.AutoDefragStops
import Oifs.AutoDefragPasses
import Oifs.FifoCache
import Oifs.InodeCache
import Oifs.InodeSlots
import Oifs.CachedInodes
import Oifs.SparedBlocks
import Oifs.HostFiles
import Oifs.Fragmentation
import Oifs.Rebuild
import Oifs.SafeDefrag
import Oifs.RangedBits
import Oifs.GapMerge
import Oifs.CoalesceRanges
import Oifs.PathResolution
