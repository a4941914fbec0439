import Noctua.Library.Execution
import Noctua.Library.Octets
import Noctua.Library.RawMemory
import Noctua.Library.Linearization
import Noctua.Library.Fifo
import Noctua.SharedMutex
import Noctua.UniqueMutex
import Noctua.LockSections
import Noctua.MutualExclusion
import Noctua.Library.Ledger
import Noctua.LockAccounting
import Noctua.LockOrder
import Noctua.Guards
import Noctua.Common
import Noctua.Rpc.Protocol
import Noctua.Rpc.CreateRequest
import Noctua.Wall.Writer
import Noctua.Wall.Lifetimes
import Noctua.Topic.Step
import Noctua.Topic.Inversion
import Noctua.Topic.Locks
import Noctua.Topic.Progress
import Noctua.Topic.Coherent
import Noctua.Topic.Front
import Noctua.Topic.Trace
import Noctua.Wall.Replay
import Noctua.Topic.Logged
import Noctua.Topic.Recovery
import Noctua.Topic.Linearizable
import Noctua.Topic.SingleConsumer
import Noctua.Rpc.Handlers
import Noctua.Rpc.RequestBuffer
import Noctua.Rpc.Broker
import Noctua.Rpc.PartitionRange
import Noctua.Rpc.Routing
import Noctua.Rpc.ServerStep
import Noctua.Rpc.WriteAhead
import Noctua.Rpc.TopicRegistry
import Noctua.Rpc.ServerThreads
import Noctua.Library.Segments
import Noctua.Rpc.Client
import Noctua.Rpc.SendRequest
import Noctua.Rpc.ClientMain
import Noctua.Rpc.Framing
import Noctua.Rpc.Responses
import Noctua.Rpc.Conversation
import Noctua.Rpc.Rejected
import Noctua.Rpc.DeleteAnswer
import Noctua.Library.Unwinding
import Noctua.Topic.Alone
import Noctua.Topic.Delivery
import Noctua.Topic.EqualTexts
import Noctua.Rpc.Independence
import Noctua.Library.PosixPath
import Noctua.Wall.Path
import Noctua.Rpc.WallFiles
import Noctua.Rpc.Assertions
import Noctua.Library.Chain
import Noctua.Library.ListFamily
import Noctua.Messages.Message
import Noctua.Messages.MessageQueue
import Noctua.Messages.Chains
import Noctua.Messages.Represents
import Noctua.Messages.Fifo
import Noctua.Messages.Ownership
import Noctua.Messages.Storage
import Noctua.Library.Attendance
import Noctua.Library.Potential
import Noctua.Library.Table
import Noctua.Locked.Modes
import Noctua.Locked.Step
import Noctua.Locked.Inversion
import Noctua.Locked.Stages
import Noctua.Locked.Attending
import Noctua.Locked.Refinement
import Noctua.Locked.Progress
import Noctua.Locked.Line
import Noctua.Locked.Order
import Noctua.Rpc.TopicRuns
import Noctua.Library.Deferred
import Noctua.Rpc.ClientHistory
import Noctua.Topic.Producers
import Noctua.Rpc.Producers
import Noctua.Rpc.Liveness
import Noctua.Rpc.Replies
import Noctua.Rpc.QueueTable
import Noctua.Rpc.Connections
import Noctua.Rpc.Commands
import Noctua.Topic.Failures
import Noctua.Library.Disk
import Noctua.Rpc.Disk
import Noctua.Rpc.Failures
import Noctua.Messages.Iterators
import Noctua.Rpc.LockedServer
import Noctua.Rpc.LockedLiveness
