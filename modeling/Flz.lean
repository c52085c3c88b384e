import Flz.ByteArray.Run
import Flz.ByteArray.Strings
import Flz.ByteArray.Readers
import Flz.ByteArray.File
import Flz.Stream.FixSize
import Flz.WebSocket.Alignment
import Flz.WebSocket.Bounds
import Flz.WebSocket.Resend
import Flz.Fiber.Discipline
import Flz.Http.Dump
import Flz.Http.KeepAlive
import Flz.Http.ResponseBounds
import Flz.Http.ResponseHead
import Flz.Http.DumpResponse
import Flz.Http.Framing
import Flz.Http.Chunked
import Flz.Http.Admission
import Flz.Http.PoolLimits
import Flz.Http.QueryRoundTrip
import Flz.Http.MethodToken
import Flz.Http.Servlet
import Flz.Hash.Hex
import Flz.Hash.Base64
import Flz.Timer.Soundness
import Flz.Timer.Calls
import Flz.Module.Manager
import Flz.Config.Variable
import Flz.Config.Load
import Flz.Log.Configuration
import Flz.Log.DefineCast
import Flz.Log.Pattern
import Flz.Log.Inheritance
import Flz.MySQL.Statement
import Flz.MySQL.Finish
import Flz.MySQL.Database
import Flz.TcpServer.Bind
import Flz.TcpServer.Conf
import Flz.Worker.Group
import Flz.Worker.ThreadPool
import Flz.IOManager.Events
import Flz.IOManager.Contexts
import Flz.IOManager.Lifecycle
import Flz.IOManager.Tickle
import Flz.IOManager.TimerTickle
import Flz.IOManager.PollTimeout
import Flz.Scheduler.Stopping
import Flz.Hook.FdManager
import Flz.Hook.Nonblock
import Flz.Hook.Durations
import Flz.Hook.Connect
import Flz.Hook.Timeout
import Flz.Hook.Close
import Flz.Address.Subnet
import Flz.Address.Text
import Flz.Uri.Print
import Flz.Address.Order
import Flz.Address.Lookup
import Flz.Crypto.Aes
import Flz.Json.Escape
import Flz.StringUtil.Trim
import Flz.Hash.Replace
import Flz.Hash.Split
import Flz.Hash.Quick
import Flz.WebSocket.Service
import Flz.Hash.Murmur
import Flz.Stream.Transfer
import Flz.Config.Directory
import Flz.TcpServer.Serve
import Flz.Config.Casts
import Flz.Log.File
import Flz.Hook.Sockets
