import TinyRpc.Coder.Bounds
import TinyRpc.Coder.Chunks
import TinyRpc.Coder.ErrorReply
import TinyRpc.Coder.Genuine
import TinyRpc.Coder.Junk
import TinyRpc.Connection.Lifecycle
import TinyRpc.Connection.Loops
import TinyRpc.Connection.Queue
import TinyRpc.Connection.Replies
import TinyRpc.EventLoop.Connecting
import TinyRpc.EventLoop.Driving
import TinyRpc.EventLoop.FdTable
import TinyRpc.EventLoop.Owners
import TinyRpc.EventLoop.WakeUp
import TinyRpc.Generator
import TinyRpc.Generator.Header
import TinyRpc.Log.Files
import TinyRpc.Log.Joining
import TinyRpc.Log.Shutdown
import TinyRpc.MsgIdUtil
import TinyRpc.NetAddr
import TinyRpc.Rpc.Classify
import TinyRpc.Rpc.ConnectFailure
import TinyRpc.Rpc.ExactlyOnce
import TinyRpc.Rpc.Finished
import TinyRpc.ScopeMutex
import TinyRpc.Server.Balance
import TinyRpc.Server.IOThread
import TinyRpc.Server.Network
import TinyRpc.TcpBuffer.Moves
import TinyRpc.TcpBuffer.Queue
import TinyRpc.Timer.Blocked
import TinyRpc.Timer.Cancel
import TinyRpc.Timer.Deadline
import TinyRpc.Timer.Order
import TinyRpc.Timer.Pending
import TinyRpc.Timer.Shared
