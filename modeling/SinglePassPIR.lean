import SinglePassPIR.Lib.Loop
import SinglePassPIR.Lib.Bytes
import SinglePassPIR.Lib.Run
import SinglePassPIR.Pir.StaticDB
import SinglePassPIR.Pir.HintTable
import SinglePassPIR.Pir.SinglePass
import SinglePassPIR.Pir.SinglePassRefine
import SinglePassPIR.Pir.StaticRuns
import SinglePassPIR.Pir.SinglePassUpdate
import SinglePassPIR.Pir.OnlinePrivacy
import SinglePassPIR.Psetggm.Xor
import SinglePassPIR.Lib.PermArray
import SinglePassPIR.Lib.FisherYates
import SinglePassPIR.Lib.MulShift
import SinglePassPIR.Psetggm.Permute
import SinglePassPIR.Psetggm.PermuteDraws
import SinglePassPIR.Psetggm.Answer
import SinglePassPIR.Pir.DynamicRuns
import SinglePassPIR.Pir.AppendRuns
import SinglePassPIR.Pir.SinglePassOverlap
import SinglePassPIR.Lib.Outcome
import SinglePassPIR.Psetggm.XorRows
import SinglePassPIR.Psetggm.HashesByBits
import SinglePassPIR.Psetggm.Ggm
import SinglePassPIR.Psetggm.Distinct
import SinglePassPIR.Psetggm.SetGenerator
import SinglePassPIR.Pir.PSet
import SinglePassPIR.Pir.Punc
import SinglePassPIR.Pir.PuncInvariant
import SinglePassPIR.Pir.PuncQuery
import SinglePassPIR.Pir.PuncRuns
import SinglePassPIR.Pir.PuncOverlap
import SinglePassPIR.Pir.PuncProgress
import SinglePassPIR.Pir.MatVec
import SinglePassPIR.Pir.Matrix
import SinglePassPIR.Lib.Bits
import SinglePassPIR.Updatable.Rice
import SinglePassPIR.Updatable.BitStream
import SinglePassPIR.Lib.KeyLog
import SinglePassPIR.Updatable.KeyUpdates
import SinglePassPIR.Updatable.KeyMessages
import SinglePassPIR.Updatable.Defrag
import SinglePassPIR.Updatable.ServerLog
import SinglePassPIR.Updatable.ClientSync
import SinglePassPIR.Pir.OpLog
import SinglePassPIR.Pir.DefaultSetSize
import SinglePassPIR.Pir.OfflinePrivacy
import SinglePassPIR.Pir.RetryPrivacy
import SinglePassPIR.Lib.Tiling
import SinglePassPIR.Updatable.Layers
import SinglePassPIR.Updatable.Routing
import SinglePassPIR.Updatable.Reads
import SinglePassPIR.Pir.AppendedRows
import SinglePassPIR.Updatable.LayerReads
import SinglePassPIR.Updatable.StaleReads
import SinglePassPIR.Pir.SetRepresentations
import SinglePassPIR.Pir.GgmSet
import SinglePassPIR.Pir.GgmElemAt
import SinglePassPIR.Lib.Probing
import SinglePassPIR.Lib.PerfectTree
import SinglePassPIR.Psetggm.XorExact
import SinglePassPIR.Psetggm.WorkspaceLayout
import SinglePassPIR.Pir.UpdateReplies
import SinglePassPIR.Pir.ClientShape
import SinglePassPIR.Pir.ShapedReads
import SinglePassPIR.Dpf.PointFunction
import SinglePassPIR.Pir.DpfClient
import SinglePassPIR.Updatable.LayerRequests
import SinglePassPIR.Updatable.LayeredSinglePass
import SinglePassPIR.Lib.Cascade
import SinglePassPIR.Updatable.HintCost
import SinglePassPIR.Updatable.LayeredPunc
import SinglePassPIR.Updatable.PirTypes
import SinglePassPIR.Updatable.KeyReads
import SinglePassPIR.Updatable.Retry
import SinglePassPIR.Dpf.KeyBytes
import SinglePassPIR.Lib.PrefixCode
import SinglePassPIR.Updatable.RiceFormat
import SinglePassPIR.Lib.NearUniform
import SinglePassPIR.Psetggm.PermuteWords
import SinglePassPIR.Pir.DrawnPrivacy
import SinglePassPIR.Pir.MatrixPrivacy
import SinglePassPIR.Pir.ReaderRuns
import SinglePassPIR.Pir.PaddedTables
import SinglePassPIR.SafeBrowsing.Proxy
import SinglePassPIR.SafeBrowsing.BlockList
import SinglePassPIR.Lib.OrderedMap
import SinglePassPIR.Driver.TraceReplay
import SinglePassPIR.Updatable.LayerOverlap
import SinglePassPIR.Updatable.LayeredPuncOverlap
import SinglePassPIR.Lib.StridedSum
import SinglePassPIR.Pir.CryptoRand
import SinglePassPIR.Updatable.KeyOverlap
