import Libgs.Lib.Find
import Libgs.Lib.Pattern
import Libgs.Lib.LineLoop
import Libgs.Lib.OrderedMap
import Libgs.Lib.Earnings
import Libgs.Lib.Digits
import Libgs.Lib.Run
import Libgs.Lib.Select
import Libgs.Lib.ChunkedCoding
import Libgs.Lib.BlockStream
import Libgs.Lib.Octets
import Libgs.Lib.Linearizable
import Libgs.Lib.Links
import Libgs.Lib.TwoKinds
import Libgs.Lib.Loop
import Libgs.Core.Base
import Libgs.Core.Algorithm
import Libgs.Core.Wildcard
import Libgs.Core.PercentEncoding
import Libgs.Core.PercentBuffers
import Libgs.Core.Trimmed
import Libgs.Core.StringList
import Libgs.Core.Replace
import Libgs.Core.Paths
import Libgs.Core.Number
import Libgs.Core.Conversions
import Libgs.Core.Value
import Libgs.Core.Uuid
import Libgs.Core.ByteOrder
import Libgs.Core.MimeType
import Libgs.Core.Sha1Block
import Libgs.Core.Sha1
import Libgs.Core.Sha1Text
import Libgs.Core.Sha1Copy
import Libgs.Core.ArgsParser
import Libgs.Core.ArgsConsumption
import Libgs.Core.ArgsDuplication
import Libgs.Core.Modules
import Libgs.Ini.Store
import Libgs.Ini.Lines
import Libgs.Ini.Escapes
import Libgs.Ini.RoundTrip
import Libgs.Ini.Failure
import Libgs.Ini.Stream
import Libgs.Ini.Accesses
import Libgs.Ini.Bounds
import Libgs.Ini.Save
import Libgs.Ini.MapOfMaps
import Libgs.Ini.Settings
import Libgs.Sync.LockFreeQueue
import Libgs.Sync.QueueChain
import Libgs.Sync.QueueProgress
import Libgs.Sync.SpinMutex
import Libgs.Sync.SpinSharedMutex
import Libgs.Sync.WakeUp
import Libgs.Sync.CoMutex
import Libgs.Sync.UniqueLock
import Libgs.Sync.CoSemaphore
import Libgs.Sync.SemaphoreBound
import Libgs.Sync.Permits
import Libgs.Sync.Fairness
import Libgs.Sync.CoSharedMutex
import Libgs.Http.Types
import Libgs.Http.ParserBase
import Libgs.Http.Turns
import Libgs.Http.Head
import Libgs.Http.Length
import Libgs.Http.Fragments
import Libgs.Http.Chunked
import Libgs.Http.ChunkedLoss
import Libgs.Http.Captured
import Libgs.Http.Consumption
import Libgs.Http.BodyLength
import Libgs.Http.Reuse
import Libgs.Http.Alike
import Libgs.Http.HelperBase
import Libgs.Http.ContentLength
import Libgs.Http.HeaderLines
import Libgs.Http.Trailers
import Libgs.Server.RequestParser
import Libgs.Server.RequestFragments
import Libgs.Server.RequestBodies
import Libgs.Server.Exceptions
import Libgs.Server.Rejection
import Libgs.Server.RequestLine
import Libgs.Server.CookieCoding
import Libgs.Server.Routing
import Libgs.Server.Registration
import Libgs.Server.HandlerChoice
import Libgs.Server.PathMatch
import Libgs.Server.RequestRead
import Libgs.Server.Service
import Libgs.Server.Boundaries
import Libgs.Server.Response
import Libgs.Server.Ranges
import Libgs.Server.RangeText
import Libgs.Server.RangeBuffer
import Libgs.Server.ContentRange
import Libgs.Server.Completion
import Libgs.Server.NextRequest
import Libgs.Server.Pipelining
import Libgs.Server.Chunkedness
import Libgs.Server.Dispatch
import Libgs.Server.Answers
import Libgs.Server.SendFile
import Libgs.Client.RequestHelper
import Libgs.Client.Query
import Libgs.Client.Headers
import Libgs.Client.Url
import Libgs.Client.UrlParts
import Libgs.Client.UrlState
import Libgs.Client.SessionPool
import Libgs.Client.PoolAnswers
import Libgs.Server.Session
import Libgs.Server.SessionSet
import Libgs.Server.Framing
import Libgs.Server.Splitting
import Libgs.Client.Message
import Libgs.Client.Upload
