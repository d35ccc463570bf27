import Tiger.Lib.Bytes
import Tiger.Lib.Simulation
import Tiger.ByteArray.Model
import Tiger.ByteArray.Flat
import Tiger.ByteArray.Codec
import Tiger.ByteArray.RoundTrip
import Tiger.Streams.SocketStream
import Tiger.WebSocket.Frame
import Tiger.WebSocket.Session
import Tiger.WebSocket.Rounds
import Tiger.WebSocket.Reassembly
import Tiger.WebSocket.Sync
import Tiger.Hash.Base64Text
import Tiger.Http.UrlCodec
import Tiger.Http.ParamReference
import Tiger.Address.Masks
import Tiger.WebSocket.Exchange
import Tiger.Lib.Interleaving
import Tiger.Scheduler.Model
import Tiger.Scheduler.WakeUp
import Tiger.Http.RequestGrammar
import Tiger.Http.Message
import Tiger.Http.RequestParser
import Tiger.Http.Session
import Tiger.Http.Cuts
import Tiger.Lib.Tally
import Tiger.Http.RequestTally
import Tiger.Http.EndOfStream
import Tiger.Http.Pipeline
import Tiger.Http.ChunkSize
import Tiger.Http.Chunked
import Tiger.Fd.Manager
import Tiger.Hook.Flags
import Tiger.IOManager.Contexts
import Tiger.IOManager.Counting
import Tiger.IOManager.Delivery
import Tiger.Lib.Tickets
import Tiger.Scheduler.History
import Tiger.Scheduler.Stop
import Tiger.Hook.SocketIo
import Tiger.Hook.Timeout
import Tiger.IOManager.WakeUp
import Tiger.Hash.Base64
import Tiger.Hash.Sha1
import Tiger.Http.Dump
import Tiger.Http.FieldMap
import Tiger.Http.Params
import Tiger.Http.RequestReads
import Tiger.Http.RequestRoundTrip
import Tiger.Http.Servlet
import Tiger.Lib.OrderedSet
import Tiger.Timers.Callbacks
import Tiger.Http.Handshake
import Tiger.Http.ResponseReads
import Tiger.Http.ResponseRoundTrip
import Tiger.Http.LazyParams
import Tiger.Http.ConnectionPool
import Tiger.ByteArray.Clear
import Tiger.Config.Load
import Tiger.Config.Lookup
import Tiger.Coroutine.Switch
import Tiger.Socket.Lifecycle
import Tiger.Uri.RoundTrip
import Tiger.ByteArray.Bounds
import Tiger.ByteArray.Truncation
import Tiger.Timers.Polling
import Tiger.Http.HeaderLines
import Tiger.Http.Methods
import Tiger.WebSocket.Resend
import Tiger.WebSocket.Lengths
import Tiger.Http.Body
import Tiger.Http.ContentLength
import Tiger.Lib.Fuel
import Tiger.Http.ResponseRounds
import Tiger.Http.ResponseTally
import Tiger.Http.ResponseWalk
import Tiger.Http.ResponseRuns
import Tiger.Address.Prefixes
import Tiger.Lib.ColonHex
import Tiger.Address.IPv6Text
import Tiger.Address.Interfaces
import Tiger.Address.Lookup
import Tiger.Address.UnixPath
import Tiger.Lib.Transfer
import Tiger.Streams.FixedSize
import Tiger.Lib.Blocks
import Tiger.Streams.ZlibStream
import Tiger.Streams.Decoding
import Tiger.Socket.Transfers
import Tiger.Servers.TcpServer
import Tiger.Uri.NullReads
import Tiger.Util.Trim
import Tiger.Hook.Sleep
import Tiger.Hook.TimeoutSettings
import Tiger.Log.Formatter
import Tiger.Scheduler.ThreadCount
import Tiger.ByteArray.Varint
import Tiger.IOManager.TimerWait
import Tiger.Http.Server
import Tiger.Http.Exchange
import Tiger.Http.ClientRequest
import Tiger.Http.UrlRequest
import Tiger.WebSocket.Server
import Tiger.WebSocket.Service
import Tiger.WebSocket.Conversation
import Tiger.Servers.Accepting
import Tiger.Servers.Restart
import Tiger.Hook.Connect
import Tiger.Log.Appenders
import Tiger.Log.Files
