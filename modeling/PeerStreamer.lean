import PeerStreamer.OutputReference
import PeerStreamer.OutputChunkstream
import PeerStreamer.InputChunkstream
import PeerStreamer.Lib.Timeval
import PeerStreamer.Loop
import PeerStreamer.SourceSchedule
import PeerStreamer.Grapes.ChunkBuffer
import PeerStreamer.Grapes.ChunkIDSet
import PeerStreamer.Grapes.PeerSet
import PeerStreamer.ChunkLock
import PeerStreamer.ChunkAttributes
import PeerStreamer.RateControl
import PeerStreamer.Streaming
import PeerStreamer.ChunkSignaling
import PeerStreamer.StreamingProof
import PeerStreamer.Requests
import PeerStreamer.Pushes
import PeerStreamer.Lib.Network
import PeerStreamer.Overlay
import PeerStreamer.NodeidSet
import PeerStreamer.Topology
import PeerStreamer.Lib.Fifo
import PeerStreamer.Lib.Mirror
import PeerStreamer.TopologyProof
import PeerStreamer.InNeighbours
import PeerStreamer.Membership
import PeerStreamer.Lib.DList
import PeerStreamer.TransactionList
import PeerStreamer.TransactionMap
import PeerStreamer.PeriodLimits
import PeerStreamer.Misdirected
import PeerStreamer.Advertised
import PeerStreamer.PlayoutCount
import PeerStreamer.TopologySelection
import PeerStreamer.TopologyAlto
import PeerStreamer.AltoSelection
import PeerStreamer.AltoSize
import PeerStreamer.Lib.Projection
import PeerStreamer.ChunkPath
import PeerStreamer.TransactionTimeout
import PeerStreamer.TopologyRound
import PeerStreamer.AltoGoals
import PeerStreamer.OutputOverflow
import PeerStreamer.SendBuffer
import PeerStreamer.ChunkstreamProgress
import PeerStreamer.InputGrapes
import PeerStreamer.Config
import PeerStreamer.ConfigOrder
import PeerStreamer.ChunkLockTable
import PeerStreamer.AcceptReference
import PeerStreamer.Lib.FisherYates
import PeerStreamer.Shuffle
import PeerStreamer.InactivitySweep
import PeerStreamer.NodeidArrays
import PeerStreamer.InitRand
import PeerStreamer.MeasureWindows
import PeerStreamer.DefaultRoute
import PeerStreamer.Lib.Qsort
import PeerStreamer.RttOrder
import PeerStreamer.ChunkTrail
import PeerStreamer.Playback
import PeerStreamer.ChunkstreamPipe
import PeerStreamer.Lib.Newest
import PeerStreamer.NewestWindow
import PeerStreamer.Acknowledged
import PeerStreamer.Lib.Threads
import PeerStreamer.LoopMt
import PeerStreamer.PeerLoop
import PeerStreamer.Lib.Knowledge
import PeerStreamer.Beliefs
import PeerStreamer.DirectOutput
import PeerStreamer.Lib.Decay
import PeerStreamer.NeighbourhoodSize
import PeerStreamer.MeasureTally
import PeerStreamer.Lib.Dialogue
import PeerStreamer.CatchUp
import PeerStreamer.SourceNode
import PeerStreamer.SourceWindow
import PeerStreamer.Seeding
import PeerStreamer.Lib.Readings
import PeerStreamer.NodeReadings
import PeerStreamer.LoopRuns
