import Saio.Transition
import Saio.CircularSlots
import Saio.SharedTable
import Saio.RingInvariant
import Saio.FifoChannel
import Saio.RingDelivery
import Saio.RingOverrun
import Saio.RingStatus
import Saio.TornSnapshot
import Saio.KernelWorker
import Saio.SystemModel
import Saio.Wrappers
import Saio.FifoBank
import Saio.SystemEffect
import Saio.SystemDelivery
import Saio.DescriptorOrder
import Saio.AdvertisedSleep
import Saio.LostWakeup
import Saio.FlushBarrier
import Saio.CallHistory
import Saio.ByteCopy
import Saio.EchoServer
import Saio.SharedLayout
import Saio.WakeupWindow
import Saio.WorkerSetup
import Saio.SendfileRange
import Saio.OffsetCells
import Saio.MessagePools
import Saio.MessageReuse
import Saio.PoolWrites
import Saio.BatchWalk
import Saio.CompletionSignal
import Saio.TornHead
import Saio.ConfigReader
import Saio.Configuration
import Saio.IndexUses
import Saio.UsesComplete
import Saio.IndexBounds
import Saio.EntryBytes
import Saio.DelayedEffects
import Saio.Transparency
import Saio.TargetSessions
import Saio.Interleaving
import Saio.Machine
import Saio.WorkerMoves
import Saio.WorkerService
import Saio.WorkerExit
import Saio.SerialClock
import Saio.IdleTimer
import Saio.Registration
import Saio.MessageSessions
import Saio.ReturnValues
import Saio.TargetAnswers
import Saio.CatchUp
import Saio.ServerSessions
import Saio.TornMarks
import Saio.WordAccess
