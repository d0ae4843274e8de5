import Nginx.Core.HashTable
import Nginx.Core.ResolverCommute
import Nginx.Core.ResolverAnswers
import Nginx.Http.V2.TableRefinement
import Nginx.Http.V2.Settings
import Nginx.Http.Parse.UriDots
import Nginx.Http.FastRequestLine
import Nginx.Http.ServeLine
import Nginx.Http.V2.SendWindows
import Nginx.Http.Upstream.RoundRobinConns
import Nginx.Http.Upstream.Chash
import Nginx.Http.Limit.LimitReqRate
import Nginx.Http.Limit.LimitReqWorkers
import Nginx.Http.Limit.LimitConn
import Nginx.Http.Sub.Stream
import Nginx.Http.Upstream.CacheOrder
import Nginx.Http.Location.StaticLocation
import Nginx.Os.SendChain
import Nginx.Http.FastCgi.Encoding
import Nginx.Http.Cache.Vary
import Nginx.Stream.SslPrereadRecords
import Nginx.Http.Proxy.Framing
import Nginx.Core.OpenFileCacheRuns
import Nginx.Http.Rewrite.Bounds
import Nginx.Http.Postpone.Complete
import Nginx.Http.Charset.Runs
import Nginx.Core.PoolApart
import Nginx.Http.Slice.Reassembled
import Nginx.Http.Args
import Nginx.Http.UriScanners
import Nginx.Http.MultiHeaderLoop
import Nginx.Http.HostNormal
import Nginx.Http.Parse.StatusCode
import Nginx.Http.UnsafeUri
import Nginx.Http.Parse.HeaderAlone
import Nginx.Core.Radix128Match
import Nginx.Core.Base64
import Nginx.Core.EscapeText
import Nginx.Core.Utf8Exact
import Nginx.Http.V2.Field
import Nginx.Core.ResolverQuery
import Nginx.Http.V2.PriorityClosed
import Nginx.Http.V2.OutputQueue
import Nginx.Http.RangeMultipart
import Nginx.Http.Cache.MinUses
import Nginx.Http.Memcached
import Nginx.Http.NotModified
import Nginx.Http.Forwarded
import Nginx.Core.Cidr
import Nginx.Http.Geo
import Nginx.Http.Upstream.Keepalive
