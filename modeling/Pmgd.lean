import Pmgd.RangeSet
import Pmgd.CrashAtomicity
import Pmgd.JournalOwnership
import Pmgd.FinishedTransactions
import Pmgd.JournalLayout
import Pmgd.AvlInvariant
import Pmgd.AvlLockPlans
import Pmgd.AvlRemove
import Pmgd.AvlTreeBounds
import Pmgd.StringQueries
import Pmgd.TimeKeys
import Pmgd.IndexInsertions
import Pmgd.IndexContents
import Pmgd.NotEqualRotations
import Pmgd.StringIds
import Pmgd.JointNeighbors
import Pmgd.JournalIds
import Pmgd.TransactionLocks
import Pmgd.BlockWrite
import Pmgd.LargeBlock
import Pmgd.PropertyCodec
import Pmgd.BatchManager
import Pmgd.InnerTransactions
import Pmgd.AllocatorLocks
import Pmgd.SmallChunkPools
import Pmgd.RouteRoundTrip
import Pmgd.FixedChunk
import Pmgd.EdgeBookkeeping
import Pmgd.EdgeVisits
import Pmgd.IteratorFilter
import Pmgd.NodeTable
import Pmgd.ChunkListAbort
import Pmgd.AbortedAllocationRuns
import Pmgd.VariableAllocatorRuns
import Pmgd.Lib.RecordRun
import Pmgd.PropertyChunks
import Pmgd.PropertyEdits
import Pmgd.PropertyIteration
import Pmgd.Lib.Calendar
import Pmgd.Lib.Decimal
import Pmgd.LocalTimes
import Pmgd.TimeText
import Pmgd.Lib.LongestMatch
import Pmgd.TextScanner
import Pmgd.TextDump
import Pmgd.TextLoader
import Pmgd.TextRoundTrip
import Pmgd.TextReload
import Pmgd.TextNames
import Pmgd.TextDatabase
import Pmgd.TextTransfer
