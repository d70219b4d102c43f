import Lamb.Library.ByteString
import Lamb.Library.Blocks
import Lamb.Library.DoubleQuotient
import Lamb.Library.Runs
import Lamb.Library.Slots
import Lamb.Library.OrderedSet
import Lamb.Library.OrderedMap
import Lamb.Library.Tokens
import Lamb.ByteStream
import Lamb.WsSession
import Lamb.WsRoundTrip
import Lamb.WsFragments
import Lamb.WsRounds
import Lamb.WsBoundaries
import Lamb.WsResend
import Lamb.Library.Base64
import Lamb.HashUtil
import Lamb.Library.PercentCoding
import Lamb.UrlCodec
import Lamb.Library.Separated
import Lamb.HttpParamScan
import Lamb.HttpValueless
import Lamb.Library.CrlfLines
import Lamb.HttpRequestDump
import Lamb.HttpContentLength
import Lamb.PooledRequest
import Lamb.ByteArray
import Lamb.ByteArrayCodec
import Lamb.ByteArrayInvariant
import Lamb.ByteArrayCalls
import Lamb.ByteArrayFlat
import Lamb.ByteArrayRoundTrip
import Lamb.ByteArraySafety
import Lamb.ByteArrayPositional
import Lamb.ByteArrayFile
import Lamb.ByteArrayRecords
import Lamb.ByteArrayStream
import Lamb.IoEvents
import Lamb.IoEventsInvariant
import Lamb.StaleReports
import Lamb.FdTable
import Lamb.FiberScheduler
import Lamb.FiberSchedulerInvariant
import Lamb.TickleWakeup
import Lamb.TaskConservation
import Lamb.StopCondition
import Lamb.IoTimeout
import Lamb.HookedFlags
import Lamb.ConnectOutcome
import Lamb.Timer
import Lamb.TimerInvariant
import Lamb.TimerRuns
import Lamb.TimerWakeup
import Lamb.TimerExpiry
import Lamb.IdleTimeout
import Lamb.HookedSleep
import Lamb.Http
import Lamb.HttpUrl
import Lamb.HttpMachine
import Lamb.HttpParser
import Lamb.HttpTrace
import Lamb.HttpCalls
import Lamb.HttpSegmentation
import Lamb.HttpCallInvariants
import Lamb.HttpTokenCuts
import Lamb.HttpSession
import Lamb.WsHandshake
import Lamb.HttpParams
import Lamb.LogConfig
import Lamb.LogIniter
import Lamb.ConnectionPool
import Lamb.ConnectionLifetime
import Lamb.HttpResponseHead
import Lamb.HttpHeaderNames
import Lamb.HttpHeaderValues
import Lamb.HttpHeaderLines
import Lamb.HttpResponseDump
import Lamb.HttpResponseDelivery
import Lamb.Library.Machine
import Lamb.UrlGrammar
import Lamb.UrlAccepted
import Lamb.Uri
import Lamb.UriRoundTrip
import Lamb.Library.BitMask
import Lamb.Address
import Lamb.AddressLookup
import Lamb.IPv4Subnet
import Lamb.IPv6Subnet
import Lamb.Library.GroupText
import Lamb.IPv6Text
import Lamb.LogFormatter
import Lamb.LogPattern
import Lamb.Config
import Lamb.ConfigYaml
import Lamb.Library.LastWrite
import Lamb.Servlets
import Lamb.Library.PathTree
import Lamb.FsRemove
import Lamb.EnvArgs
import Lamb.Sockets
import Lamb.TcpServer
import Lamb.SocketCancel
import Lamb.FiberSwitch
import Lamb.ByteArrayVarint
import Lamb.StringTrim
import Lamb.Library.Trimming
import Lamb.HttpRequestHead
import Lamb.HttpRequestLine
import Lamb.HttpRequestDelivery
import Lamb.HttpServing
import Lamb.HttpExchange
import Lamb.WsServing
import Lamb.FdRegistry
import Lamb.HookedDescriptors
import Lamb.ThreadStart
import Lamb.ConfDir
import Lamb.LexicalCast
import Lamb.TimerIndependence
import Lamb.TcpServing
import Lamb.IoWakeup
import Lamb.FileLog
import Lamb.HookedIo
