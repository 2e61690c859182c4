import Flconc.Lib.Run
import Flconc.Lib.Multimap
import Flconc.Coroutine.Mutex
import Flconc.Net.Timer
import Flconc.Lib.Wire
import Flconc.Net.TcpBuffer
import Flconc.FlconcPb.Codec
import Flconc.FlconcPb.Safety
import Flconc.FlconcPb.Packet
import Flconc.FlconcPb.Pipeline
import Flconc.Lib.Text
import Flconc.FlconcPb.Dispatcher
import Flconc.Http.Codec
import Flconc.Lib.Loop
import Flconc.Net.Execute
import Flconc.FlconcPb.Stream
import Flconc.Net.Reactor
import Flconc.Net.WakeUp
import Flconc.FlconcPb.Reply
import Flconc.Net.Output
import Flconc.Net.Receive
import Flconc.Lib.Mailbox
import Flconc.Net.Replies
import Flconc.Coroutine.Pool
import Flconc.Net.Tasks
import Flconc.Net.TcpServer
import Flconc.Net.TcpClient
import Flconc.Net.Parked
import Flconc.Net.Reuse
import Flconc.Net.Registration
import Flconc.Net.FdEvent
import Flconc.Net.Accept
import Flconc.Net.TimeWheel
import Flconc.Net.Waiting
import Flconc.Lib.Decimal
import Flconc.Comm.MySQLInstase
import Flconc.Comm.Log
import Flconc.FlconcPb.AsyncChannel
import Flconc.Http.Split
import Flconc.Http.Message
import Flconc.Http.Complete
import Flconc.Http.Pipeline
import Flconc.Http.Response
import Flconc.Http.Framing
import Flconc.Lib.Refine
import Flconc.Net.Queue
import Flconc.Net.TimerTasks
import Flconc.Http.Target
import Flconc.FlconcPb.Consumed
import Flconc.FlconcPb.Received
import Flconc.FlconcPb.Stale
import Flconc.FlconcPb.BadFrames
import Flconc.FlconcPb.RpcChannel
import Flconc.Net.Closing
import Flconc.Generator.FlconcGenerator
import Flconc.Net.NetAddress
import Flconc.Comm.MsgReq
import Flconc.Net.Cursors
import Flconc.Net.FdEventContainer
import Flconc.Http.Join
import Flconc.FlconcPb.PendingCor
import Flconc.Net.CallTimer
import Flconc.Coroutine.Switch
import Flconc.Coroutine.Scheduler
import Flconc.Coroutine.StackSize
import Flconc.Lib.Framing
import Flconc.Net.Serve
import Flconc.FlconcPb.Serve
import Flconc.Http.Serve
import Flconc.FlconcPb.Exchange
import Flconc.FlconcPb.Returns
import Flconc.Lib.Monitor
import Flconc.Comm.ThreadPool
import Flconc.Lib.Segments
import Flconc.Comm.LogFile
import Flconc.Net.IOThread
import Flconc.Comm.LogWait
import Flconc.Coroutine.Sleep
import Flconc.Net.IdleTimeout
import Flconc.Lib.PyStr
import Flconc.Generator.PbHeader
import Flconc.Generator.Interfaces
import Flconc.Generator.Framework
