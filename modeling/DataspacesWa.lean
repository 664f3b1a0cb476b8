import DataspacesWa.RequestReply
import DataspacesWa.Reassembly
import DataspacesWa.DsDriver
import DataspacesWa.RemoteMove
import DataspacesWa.Directory
import DataspacesWa.BlockingGet
import DataspacesWa.Replies
import DataspacesWa.MovingSet
import DataspacesWa.MoveSource
import DataspacesWa.LzTree
import DataspacesWa.PpmTree
import DataspacesWa.Prediction
import DataspacesWa.PrefetchActions
import DataspacesWa.SpaceQuery
import DataspacesWa.JoinPackets
import DataspacesWa.Mesh
import DataspacesWa.Packet
import DataspacesWa.LateJoin
import DataspacesWa.Metadata
import DataspacesWa.ByteCount
import DataspacesWa.Threads
import DataspacesWa.ParallelXor
import DataspacesWa.IntervalSet
import DataspacesWa.SAlgo
import DataspacesWa.HSAlgo
import DataspacesWa.RTable
import DataspacesWa.TcpStream
import DataspacesWa.IbHeader
import DataspacesWa.IbTransfer
import DataspacesWa.IbTransferSteps
import DataspacesWa.TopK
import DataspacesWa.Predictors
import DataspacesWa.MPAlgo
import DataspacesWa.MixedScores
import DataspacesWa.Pick
import DataspacesWa.MixedChoice
import DataspacesWa.MixedBudget
import DataspacesWa.MixedRuns
import DataspacesWa.MixedLosses
import DataspacesWa.CacheRuns
import DataspacesWa.Broadcast
import DataspacesWa.KeyOrder
import DataspacesWa.BoxOrder
import DataspacesWa.SpatialSyncer
import DataspacesWa.PrefetchLists
import DataspacesWa.AlzTree
import DataspacesWa.PpmBackoff
import DataspacesWa.Frequencies
import DataspacesWa.LzSize
import DataspacesWa.BitMatrix
import DataspacesWa.BitTranspose
import DataspacesWa.WordDigits
import DataspacesWa.HilbertDigits
import DataspacesWa.Hilbert
import DataspacesWa.HilbertNeighbours
import DataspacesWa.HilbertQuery
import DataspacesWa.MapSizes
import DataspacesWa.ControlWire
import DataspacesWa.ControlPackets
import DataspacesWa.AppRuns
import DataspacesWa.AppCalls
import DataspacesWa.Transfers
import DataspacesWa.BQueue
