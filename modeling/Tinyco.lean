import Tinyco.Runs
import Tinyco.AssocMap
import Tinyco.Heap
import Tinyco.Scheduler
import Tinyco.SchedulerMoves
import Tinyco.SchedulerPlaces
import Tinyco.SchedulerPartition
import Tinyco.FrameFini
import Tinyco.SchedulerRound
import Tinyco.SleepDeadline
import Tinyco.SharedDescriptor
import Tinyco.AcceptLoop
import Tinyco.AcceptedFds
import Tinyco.AcceptLock
import Tinyco.AtomicMtx
import Tinyco.WorkerPids
import Tinyco.AcceptLockSafety
import Tinyco.SignalRouting
import Tinyco.SignalEffects
import Tinyco.Bytes
import Tinyco.StringUtil
import Tinyco.HttpMessage
import Tinyco.HttpParser
import Tinyco.ParsedMessage
import Tinyco.RequestIsolation
import Tinyco.HeadOnly
import Tinyco.RecvBuffer
import Tinyco.HttpServer
import Tinyco.RpcService
import Tinyco.ResponseIsolation
import Tinyco.ResponseFraming
import Tinyco.SelfDelimiting
import Tinyco.SocketSend
import Tinyco.SocketRecv
import Tinyco.TcpConn
import Tinyco.WorkerReap
import Tinyco.MasterPass
import Tinyco.WorkerRestart
import Tinyco.WorkerModes
import Tinyco.ServerConfig
import Tinyco.ConfigHonoured
import Tinyco.FdOwners
import Tinyco.ConnTracking
import Tinyco.PendingHeap
import Tinyco.PendingAccess
import Tinyco.DeadThreads
import Tinyco.RecvAgreement
import Tinyco.SocketConnect
import Tinyco.TcpSendAndRecv
import Tinyco.HeaderFragments
import Tinyco.Framing
import Tinyco.CheckHttp
import Tinyco.HttpClient
import Tinyco.HttpsClient
import Tinyco.FdTable
import Tinyco.ClientFds
import Tinyco.ClientReconnect
import Tinyco.HttpsCalls
import Tinyco.HttpsFds
import Tinyco.WrappingCounter
import Tinyco.DnsResolver
import Tinyco.DnsFreshness
import Tinyco.DnsTurns
import Tinyco.RpcRegistration
import Tinyco.ListenAddress
import Tinyco.MessageRoundTrip
import Tinyco.HeaderRecasing
import Tinyco.HeaderCase
import Tinyco.UrlText
import Tinyco.QueryParams
import Tinyco.HttpOp
import Tinyco.RpcChannel
import Tinyco.LogRotation
import Tinyco.Simulation
import Tinyco.TaskSystem
import Tinyco.SchedulerRefinement
import Tinyco.CoroutineLives
import Tinyco.CoroutineStacks
import Tinyco.HttpReading
import Tinyco.MessageDelivery
import Tinyco.PlainMessages
import Tinyco.RemoteCall
import Tinyco.PostedUrl
import Tinyco.KeptConnection
import Tinyco.KeptAnswers
import Tinyco.WorkerPool
import Tinyco.ChildSignals
import Tinyco.WorkerRecovery
import Tinyco.ListenerShut
import Tinyco.ListenerOpen
import Tinyco.AcceptBursts
import Tinyco.RequestIntake
import Tinyco.RequestsAccounted
import Tinyco.RequestsServed
import Tinyco.SocketPipe
import Tinyco.PipeDelivery
import Tinyco.LogProcesses
import Tinyco.LogDirectory
import Tinyco.LogHistory
import Tinyco.LogLines
