import Castrum.Lib.Scan
import Castrum.Util.Bytes
import Castrum.Util.Wire
import Castrum.Crypto.CookieSign
import Castrum.Crypto.Hex
import Castrum.Crypto.HexInPlace
import Castrum.Ffi.VerifyCookie
import Castrum.Json.Value
import Castrum.Json.Decimal
import Castrum.Json.Grammar
import Castrum.Lib.Runs
import Castrum.Lib.Lru
import Castrum.Lib.Split
import Castrum.Lib.Output
import Castrum.Lib.Checked
import Castrum.Lib.Find
import Castrum.Lib.Nav
import Castrum.Lib.EventStream
import Castrum.Lib.Calendar
import Castrum.Shared.BufferPool
import Castrum.Shared.Response
import Castrum.Shared.Handles
import Castrum.Task.Runtime
import Castrum.FastSchema.Equality
import Castrum.FastSchema.Cursor
import Castrum.FastSchema.Skip
import Castrum.FastSchema.Strings
import Castrum.FastSchema.Types
import Castrum.FastSchema.Capture
import Castrum.FastSchema.Trie
import Castrum.FastSchema.Errors
import Castrum.FastSchema.Validate
import Castrum.FastSchema.Semantics
import Castrum.FastSchema.Verdict
import Castrum.FastSchema.Judges
import Castrum.FastSchema.Loops
import Castrum.FastSchema.Exact
import Castrum.FastSchema.Mute
import Castrum.FastSchema.Twin
import Castrum.Lib.StateOption
import Castrum.FastSchema.Compile
import Castrum.FastSchema.Balance
import Castrum.FastSchema.Draft7
import Castrum.FastSchema.Pointers
import Castrum.FastSchema.CompileCorrect
import Castrum.FastSchema.Agreement
import Castrum.FastSchema.ErrorMode
import Castrum.Ingress.RateLimit
import Castrum.Ingress.RateReset
import Castrum.Json.Utf8
import Castrum.Util.Str
import Castrum.Http.UrlJoin
import Castrum.Http.DotSegments
import Castrum.Json.Escape
import Castrum.Json.Pairs
import Castrum.Payload.Sse
import Castrum.Http.FormDecode
import Castrum.Http.FormIndexed
import Castrum.Http.FormSpec
import Castrum.Http.QueryParser
import Castrum.Http.UrlCodec
import Castrum.Json.QueryJson
import Castrum.Http.Headers
import Castrum.Http.TokenCase
import Castrum.Http.HttpDate
import Castrum.Http.Etag
import Castrum.Http.Accept
import Castrum.Http.MediaType
import Castrum.Ingress.Output
import Castrum.Ingress.Packed
import Castrum.Lib.Utf16
import Castrum.Ingress.SelectHeaders
import Castrum.Ingress.InputPacker
import Castrum.Ingress.Origin
import Castrum.Ingress.RequestTarget
import Castrum.Ingress.Cors
import Castrum.Ingress.Stages
import Castrum.Ingress.Validators
import Castrum.Ingress.Sections
import Castrum.Ingress.Pipeline
import Castrum.Ingress.Result
import Castrum.Ingress.NativeRoute
import Castrum.Ingress.RouteBuffer
import Castrum.Ingress.RouteWire
import Castrum.Ingress.Body
import Castrum.Ingress.BakedResult
import Castrum.Ingress.FastResult
import Castrum.Ingress.BakedHandler
import Castrum.Ingress.HandlerOptions
import Castrum.Ingress.ClientIp
import Castrum.Ingress.JsonWrite
import Castrum.Ingress.NativeHandler
import Castrum.Lib.Parallel
import Castrum.Lib.Saturate
import Castrum.Util.Packed
import Castrum.Util.Batch
import Castrum.Util.BatchParallel
import Castrum.Util.BatchSum
import Castrum.Json.SchemaBatch
import Castrum.Shared.PackedWire
import Castrum.Util.BatchFrames
import Castrum.Http.PackedSize
import Castrum.Crypto.Aead
import Castrum.Crypto.Session
import Castrum.Http.Multipart
import Castrum.Http.MultipartRender
import Castrum.Http.MultipartLimits
import Castrum.Shared.MultipartWire
import Castrum.Json.Patch
import Castrum.Json.PatchIndex
import Castrum.Ingress.SchemaCache
import Castrum.Loader.Ops
import Castrum.Loader.Load
import Castrum.Loader.Flush
import Castrum.Loader.Parked
import Castrum.Loader.Settle
import Castrum.Loader.CacheSound
import Castrum.Task.Completion
import Castrum.Task.Conservation
import Castrum.Task.Doorbell
import Castrum.Task.Pool
import Castrum.Task.Decompress
import Castrum.Lib.Read
import Castrum.Ffi.Compress
import Castrum.Ffi.RoundTrip
import Castrum.Lib.JsObject
import Castrum.Ffi.JsonPacked
import Castrum.Ffi.JsonTokens
import Castrum.Ffi.JsonDecode
import Castrum.Ffi.JsonRoundTrip
import Castrum.Lib.Fuel
import Castrum.FastSchema.References
import Castrum.Ingress.BodyRace
import Castrum.Lib.Greedy
import Castrum.Ingress.PathMatcher
import Castrum.Ingress.PathSpecificity
import Castrum.Ingress.Router
import Castrum.Lib.WhatwgUrl
import Castrum.Ingress.NodeUrl
import Castrum.Lib.Binary64
import Castrum.Crypto.Jwt
import Castrum.Crypto.JwtSign
import Castrum.Payload.Decompress
import Castrum.Task.Destination
import Castrum.Task.Cancelled
import Castrum.Payload.WsFrames
import Castrum.Payload.WsDecode
import Castrum.Util.HexBatch
import Castrum.Metrics.Registry
import Castrum.Metrics.Render
import Castrum.Metrics.Failed
import Castrum.Metrics.Runs
import Castrum.Metrics.Histogram
import Castrum.Metrics.Labels
import Castrum.Metrics.Duplicates
import Castrum.Shared.Accounting
import Castrum.Shared.PackedPairs
import Castrum.Crypto.CookieGrammar
import Castrum.FastSchema.Scalars
import Castrum.Lib.Escaping
import Castrum.Json.Pointer
import Castrum.FastSchema.DistinctKeys
import Castrum.FastSchema.Derived
import Castrum.Json.Derive
import Castrum.Lib.JsMap
import Castrum.Shared.Metrics
import Castrum.Shared.Observations
import Castrum.Shared.RequestId
import Castrum.Ingress.IngressMetrics
import Castrum.Lib.PrefixCode
import Castrum.Shared.Exposition
import Castrum.Ingress.SharedLimiter
import Castrum.Ingress.ResponseHeaders
