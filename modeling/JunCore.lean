import JunCore.Lib.Transition
import JunCore.Lib.Framing
import JunCore.Lib.Cyclic
import JunCore.Lib.Counting
import JunCore.Lib.Precedence
import JunCore.Lib.Linearizable
import JunCore.Lib.Linked
import JunCore.Lib.BoundedQueue
import JunCore.Lib.Handles
import JunCore.Lib.Buckets
import JunCore.Lib.Extremes
import JunCore.Lib.BlockModes
import JunCore.Lib.CString
import JunCore.Lib.Decimal
import JunCore.Lib.Leases
import JunCore.Lib.Custody
import JunCore.Lib.Serial
import JunCore.Lib.Approach
import JunCore.Lib.Contention
import JunCore.Core.Event
import JunCore.Core.Subscription
import JunCore.Common.LFQueue
import JunCore.Common.RingBuffer
import JunCore.Common.ByteQueue
import JunCore.Common.LFQueueSteps
import JunCore.Common.LFQueueShape
import JunCore.Common.LFQueueEffects
import JunCore.Common.LFQueueMoves
import JunCore.Common.LFQueueLedger
import JunCore.Common.LFQueueOrder
import JunCore.Common.LFQueueEmpty
import JunCore.Common.OnceInitializer
import JunCore.Common.OncePhases
import JunCore.Common.LFObjectPool
import JunCore.Common.PoolLifetimes
import JunCore.Common.LFObjectPoolTLS
import JunCore.Common.LFStack
import JunCore.Common.LockFree
import JunCore.Common.JobQueue
import JunCore.Common.ThreadPool
import JunCore.Common.AsyncLog
import JunCore.Common.LogShutdown
import JunCore.Common.LogFormat
import JunCore.Common.LogRotation
import JunCore.Common.SlidingWindowCounter
import JunCore.Common.Profiler
import JunCore.Common.RecursiveLock
import JunCore.Common.AES128
import JunCore.Common.Parser
import JunCore.Common.ParserBuffers
import JunCore.Common.ParserComments
import JunCore.Common.ParserSections
import JunCore.Logic.JobObject
import JunCore.Logic.JobThread
import JunCore.Logic.Token
import JunCore.Logic.Order
import JunCore.Logic.Wakeup
import JunCore.Logic.Lifetime
import JunCore.Logic.Delivery
import JunCore.Logic.Scene
import JunCore.Logic.SceneThread
import JunCore.Logic.Manager
import JunCore.Logic.Registry
import JunCore.Logic.Shutdown
import JunCore.Logic.Entity
import JunCore.Logic.GameThread
import JunCore.GameServer.Player
import JunCore.GameServer.PlayerView
import JunCore.GameServer.PlayerMoves
import JunCore.GameServer.MoveComponent
import JunCore.GameServer.GameServer
import JunCore.GameServer.LifeCycle
import JunCore.Network.UnifiedPacketHeader
import JunCore.Network.ProtocolBuffer
import JunCore.Network.Receive
import JunCore.Network.ScatterReceive
import JunCore.Network.Progress
import JunCore.Network.Codec
import JunCore.Network.Dispatch
import JunCore.Network.PacketSizes
import JunCore.Network.Decoders
import JunCore.Network.SessionSteps
import JunCore.Network.SessionStart
import JunCore.Network.SessionLedger
import JunCore.Network.SessionLaws
import JunCore.Network.SendSteps
import JunCore.Network.SendStream
import JunCore.Network.SendWakeup
import JunCore.Network.UserSteps
import JunCore.Network.UserLaws
import JunCore.Network.SendBacklog
import JunCore.Network.HalfDead
import JunCore.Network.Disconnect
import JunCore.Network.SendDebug
import JunCore.Network.Callbacks
import JunCore.Network.Receiving
import JunCore.Network.Endpoint
import JunCore.Network.Link
import JunCore.Network.SessionHeap
import JunCore.Network.SocketSteps
import JunCore.Network.SocketClosing
import JunCore.Network.WorkerSlots
import JunCore.Network.CompletionPort
import JunCore.Network.AcceptLoop
import JunCore.Network.ClientSlots
import JunCore.Network.Reconnect
import JunCore.EchoServer.EchoServer
import JunCore.EchoServer.EchoHandler
import JunCore.EchoServer.EchoOrder
import JunCore.EchoServer.StressClient
import JunCore.EchoServer.StressTest
