import HClient.Effect.Monitor
import HClient.Core.Http
import HClient.Core.Time
import HClient.Core.Header
import HClient.Core.Kv
import HClient.Hsts.Rules
import HClient.Hsts.Directives
import HClient.Hsts.Concurrent
import HClient.Core.Table
import HClient.Cookies.Scope
import HClient.Effect.Interleave
import HClient.Client.Credentials
import HClient.Client.Attempts
import HClient.Client.Caching
import HClient.Cache.Merging
import HClient.Effect.Machine
import HClient.Cache.KvRuns
import HClient.AltSvc.Concurrent
import HClient.AltSvc.Parsing
import HClient.Cache.Runs
import HClient.Cache.Freshness
import HClient.Cache.Revalidation
import HClient.Cache.Variants
import HClient.Cookies.Contents
import HClient.Cookies.Flat
import HClient.Cookies.Pairs
import HClient.Cookies.Batch
import HClient.Cookies.Checked
import HClient.Cookies.KvBounds
import HClient.Cookies.KvCounter
import HClient.Cookies.KvConcurrent
import HClient.Egress.Rules
import HClient.Egress.Preference
import HClient.Native.Heads
import HClient.Native.Http1
import HClient.Native.Http1Runs
import HClient.Native.PoolRuns
import HClient.Effect.Open
import HClient.Native.Http3
import HClient.Native.Http3Record
import HClient.Native.Http3Runs
import HClient.Connect.SchedulerRuns
import HClient.Connect.DriveRuns
import HClient.Native.Connecting
import HClient.Native.ConnectBudget
import HClient.Connect.Interleave
import HClient.Body.DecompressedRuns
import HClient.Body.ChainRuns
import HClient.Body.Negotiate
import HClient.Body.DeflateRuns
import HClient.Body.ZstdRuns
import HClient.Masque.Path
import HClient.WebTransport.DatagramRuns
import HClient.Dns.Names
import HClient.Dns.Expansion
import HClient.Dns.Svcb
import HClient.Dns.Doh
import HClient.Proxy.Replies
import HClient.Proxy.Head
import HClient.Proxy.Socks5Path
import HClient.Sse.Interpretation
import HClient.Sse.Chunks
import HClient.Sse.Reconnecting
import HClient.WebTransport.Sessions
import HClient.Client.Hops
import HClient.Client.Cached
import HClient.Client.Builder
import HClient.Lines.Limit
import HClient.Native.Http2Pump
import HClient.Native.Http3Body
import HClient.Native.Undo
import HClient.Native.SeamSocket
import HClient.Native.TcpShared
import HClient.Native.RouteRuns
import HClient.Sansio.Rewriting
import HClient.Cookies.KvEncoding
import HClient.Cookies.Date
import HClient.Cache.Keys
import HClient.Cache.Counted
import HClient.Cache.KvEncoding
import HClient.Cookies.KvKeys
import HClient.Cache.Elements
import HClient.Core.Conjunction
import HClient.Client.Agreement
import HClient.Client.Retry
import HClient.Cache.Date
import HClient.Egress.Translate
import HClient.Egress.ProxyUrl
import HClient.Egress.Dialect
import HClient.Core.Words
import HClient.Auth.Netrc
import HClient.Auth.Digest
import HClient.Core.Sort
import HClient.Auth.Offers
import HClient.Auth.Challenges
import HClient.Auth.Answer
import HClient.Core.Poll
import HClient.Core.Segments
import HClient.Sansio.DotSegments
import HClient.Otel.UrlFull
import HClient.Sse.Accounting
import HClient.Client.Charset
import HClient.Sansio.Links
import HClient.Sansio.Resolve
import HClient.Core.Bootstring
import HClient.Idn.Punycode
import HClient.Idn.Ace
import HClient.Core.Mime
import HClient.Multipart.Form
import HClient.Multipart.Wire
import HClient.Multipart.Runs
import HClient.WebSocket.Socket
import HClient.WebSocket.Runs
