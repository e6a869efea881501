import Utopfs.Prog
import Utopfs.Faults
import Utopfs.Wire
import Utopfs.Except
import Utopfs.FSBlockStore
import Utopfs.FSBlockStoreIndex
import Utopfs.FSBlockStoreGc
import Utopfs.FSBlockStoreOpen
import Utopfs.FSBlockStoreSpace
import Utopfs.Recency
import Utopfs.FSBlockStoreReopen
import Utopfs.FSBlockStoreCapacity
import Utopfs.S3BlockStore
import Utopfs.S3BlockStoreReopen
import Utopfs.S3BlockStoreStored
import Utopfs.S3BlockStoreIndex
import Utopfs.S3BlockStorePuts
import Utopfs.Node
import Utopfs.Messages
import Utopfs.FileNode
import Utopfs.BlockNodeCache
import Utopfs.BlockTree
import Utopfs.BlockSteps
import Utopfs.BlockFind
import Utopfs.Traverse
import Utopfs.TraverseRead
import Utopfs.FileBytes
import Utopfs.FileReadWrite
import Utopfs.Flush
import Utopfs.FileFlush
import Utopfs.FileArray
import Utopfs.Truncate
import Utopfs.TruncateLaw
import Utopfs.FailedWrite
import Utopfs.DirNode
import Utopfs.CacheOrder
import Utopfs.UTFileSystem
import Utopfs.Paths
import Utopfs.LGraph
import Utopfs.DirEntries
import Utopfs.DirInv
import Utopfs.DirTree
import Utopfs.DirSteps
import Utopfs.DirLookup
import Utopfs.FlushPuts
import Utopfs.FsOk
import Utopfs.FsReads
import Utopfs.FsFlush
import Utopfs.FsPaths
import Utopfs.FsStops
import Utopfs.FsRefresh
import Utopfs.FsRuns
import Utopfs.Symlinks
import Utopfs.ReadLock
import Utopfs.BlockNames
import Utopfs.EmptyWrite
import Utopfs.Holes
import Utopfs.Worklist
import Utopfs.WorklistOrder
import Utopfs.HeadForest
import Utopfs.HeadChain
import Utopfs.FsMount
import Utopfs.FsCrash
import Utopfs.HeadNodeGraph
import Utopfs.HeadFollow
import Utopfs.Base64
import Utopfs.HeadLog
import Utopfs.HeadMaps
import Utopfs.Interleave
import Utopfs.RefreshBlocks
import Utopfs.VBSChildNotify
import Utopfs.VBSHeadFurthest
import Utopfs.VBSHeadFurthestFills
import Utopfs.VBSHeadFurthestRuns
import Utopfs.Gather
import Utopfs.VBSHeadFollowFill
import Utopfs.VBSHeadFollow
import Utopfs.VBlockStore
import Utopfs.VBlockStoreAccounts
import Utopfs.VBlockStoreBalance
import Utopfs.VBlockStoreCancel
import Utopfs.VBlockStoreFanOut
import Utopfs.VBSRefreshStart
import Utopfs.VBlockStoreQuiet
import Utopfs.VBlockStoreTally
import Utopfs.Base32
import Utopfs.DirChange
import Utopfs.DirCreate
import Utopfs.DirRead
import Utopfs.DirRename
import Utopfs.TreeRuns
