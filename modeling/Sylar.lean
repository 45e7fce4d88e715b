import Sylar.ByteArray.Script
import Sylar.ByteArray.Atomic
import Sylar.ByteArray.Buffers
import Sylar.ByteArray.Peek
import Sylar.ByteArray.Saves
import Sylar.Stream.FixSize
import Sylar.Timers.Answers
import Sylar.IOManager.Dispatch
import Sylar.IOManager.Idle
import Sylar.IOManager.Kernel
import Sylar.IOManager.Table
import Sylar.Scheduler.Exclusive
import Sylar.Scheduler.Calls
import Sylar.Scheduler.Pinned
import Sylar.Http.Limits
import Sylar.Hook.Contexts
import Sylar.Hook.Flags
import Sylar.Hook.Sleep
import Sylar.Config.Variable
import Sylar.Fibers.Current
import Sylar.Pool.Runs
import Sylar.Log.History
import Sylar.Http.RequestRoundTrip
import Sylar.Http.ResponseText
import Sylar.Http.UriRoundTrip
import Sylar.Http.Framing
import Sylar.Http.Servlet
import Sylar.Net.Order
import Sylar.Net.Text
import Sylar.Net.Lookup
import Sylar.Net.TcpServer
import Sylar.Log.Format
import Sylar.Log.Inheritance
import Sylar.Config.Lookup
import Sylar.Config.Cast
import Sylar.Http.Exchange
import Sylar.Env
