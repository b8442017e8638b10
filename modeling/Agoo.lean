import Agoo.ArgUses
import Agoo.Base64
import Agoo.BindUrl
import Agoo.Binds
import Agoo.Blocks
import Agoo.Bytes
import Agoo.Calm
import Agoo.Chains
import Agoo.CloseNotice
import Agoo.ConHeader
import Agoo.ConLoop
import Agoo.ConSlices
import Agoo.Conversion
import Agoo.ConversionExact
import Agoo.ConversionFree
import Agoo.CrlfLines
import Agoo.DayCache
import Agoo.Doc
import Agoo.DocBounds
import Agoo.DocFrame
import Agoo.DocOp
import Agoo.DocReads
import Agoo.DocTermination
import Agoo.DocValue
import Agoo.DocVars
import Agoo.EnumUnique
import Agoo.Err
import Agoo.ErrResp
import Agoo.EvalDepth
import Agoo.EvalFrame
import Agoo.EvalIntro
import Agoo.EvalKeys
import Agoo.EvalLasts
import Agoo.EvalPrune
import Agoo.EvalRules
import Agoo.EvalRuns
import Agoo.EvalState
import Agoo.EventSource
import Agoo.Excl
import Agoo.FillHeaders
import Agoo.GlobMatch
import Agoo.Gql
import Agoo.GqlEval
import Agoo.GqlInit
import Agoo.GqlIntro
import Agoo.GqlPublish
import Agoo.GqlText
import Agoo.GqlTree
import Agoo.GroupGet
import Agoo.HeadBehind
import Agoo.HeaderKeys
import Agoo.HeaderLines
import Agoo.HeaderLookup
import Agoo.Hook
import Agoo.HttpHeader
import Agoo.HttpServed
import Agoo.HttpStream
import Agoo.HttpWriter
import Agoo.Indentation
import Agoo.IntLiterals
import Agoo.IntroShows
import Agoo.IntroTypeRef
import Agoo.Json
import Agoo.JsonEscapes
import Agoo.JsonRoundTrip
import Agoo.JsonText
import Agoo.KindSafety
import Agoo.LinkedList
import Agoo.ListLoops
import Agoo.LittleEndian
import Agoo.Log
import Agoo.LogFlush
import Agoo.LogOrder
import Agoo.LogRotate
import Agoo.NullReads
import Agoo.Numbers
import Agoo.Page
import Agoo.PageCache
import Agoo.PageFrame
import Agoo.PageLifetime
import Agoo.PagePaths
import Agoo.PathBuffers
import Agoo.Paths
import Agoo.PostHook
import Agoo.Publish
import Agoo.PublishRefs
import Agoo.PublishSets
import Agoo.PushFrames
import Agoo.PushQueue
import Agoo.PushRead
import Agoo.QueryDecode
import Agoo.QueryValue
import Agoo.Queue
import Agoo.QueueOrder
import Agoo.RackHeaders
import Agoo.RackResponse
import Agoo.Radix
import Agoo.Reader
import Agoo.Ready
import Agoo.ReadyEpoll
import Agoo.ReadyLoop
import Agoo.ReadyPoll
import Agoo.RecordLifetime
import Agoo.RequestLine
import Agoo.RescueError
import Agoo.Response
import Agoo.ResponseObject
import Agoo.Runs
import Agoo.Scan
import Agoo.Sdl
import Agoo.SdlDefaults
import Agoo.SdlDestroy
import Agoo.SdlDoc
import Agoo.SdlExtend
import Agoo.SdlHolds
import Agoo.SdlMoves
import Agoo.SdlPieces
import Agoo.SdlPrint
import Agoo.SdlRoundTrip
import Agoo.SecTime
import Agoo.Sha1
import Agoo.Subject
import Agoo.Text
import Agoo.TextBuffer
import Agoo.TextRefs
import Agoo.TimeParse
import Agoo.TimeRoundTrip
import Agoo.Triple
import Agoo.TypeBuckets
import Agoo.TypeNames
import Agoo.TypeRefs
import Agoo.TypeTable
import Agoo.TypeTableAdds
import Agoo.TypeTableGrows
import Agoo.UpList
import Agoo.UpServer
import Agoo.UpWalks
import Agoo.Upgrade
import Agoo.UpgradeVerdict
import Agoo.UuidText
import Agoo.ValueDup
import Agoo.WebSocket
import Agoo.WsFrames
import Agoo.WsHeaders
import Agoo.WsStream
