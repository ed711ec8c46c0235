import HftEngine.BinaryFile
import HftEngine.BookView
import HftEngine.ClosedLoop
import HftEngine.Config
import HftEngine.Engine
import HftEngine.Exchange
import HftEngine.FeedHandler
import HftEngine.FuzzTargets
import HftEngine.GatewaySession
import HftEngine.Histogram
import HftEngine.Itch50
import HftEngine.ItchParser
import HftEngine.Json
import HftEngine.LevelBook
import HftEngine.Lib.BoundedQueue
import HftEngine.Lib.Bytes
import HftEngine.Lib.Channel
import HftEngine.Lib.Clock
import HftEngine.Lib.Frames
import HftEngine.Lib.LevelMap
import HftEngine.Lib.Linearized
import HftEngine.Lib.LogLinear
import HftEngine.Lib.Machine
import HftEngine.Lib.OwnSteps
import HftEngine.Lib.Positions
import HftEngine.Lib.Ranks
import HftEngine.Lib.RequestReply
import HftEngine.Lib.SortedMap
import HftEngine.Lib.Tally
import HftEngine.Lib.Threads
import HftEngine.Lib.TokenBucket
import HftEngine.Lib.Transition
import HftEngine.Lifecycle
import HftEngine.Literal
import HftEngine.Message
import HftEngine.OrderFlow
import HftEngine.OrderGateway
import HftEngine.OrderLoop
import HftEngine.OrderProtocol
import HftEngine.RateMeter
import HftEngine.Replay
import HftEngine.ReplayTool
import HftEngine.RingEngine
import HftEngine.RiskGate
import HftEngine.SimExchange
import HftEngine.SpscQueue
import HftEngine.Stages
import HftEngine.Strategy
import HftEngine.Table
import HftEngine.Theorems.BinaryFile
import HftEngine.Theorems.BinaryStream
import HftEngine.Theorems.Book
import HftEngine.Theorems.BookWindow
import HftEngine.Theorems.ClosedLoop
import HftEngine.Theorems.Config
import HftEngine.Theorems.Conservation
import HftEngine.Theorems.Decoder
import HftEngine.Theorems.Engine
import HftEngine.Theorems.ExactLinks
import HftEngine.Theorems.Exchange
import HftEngine.Theorems.FeedHandler
import HftEngine.Theorems.FeedLink
import HftEngine.Theorems.FuzzTargets
import HftEngine.Theorems.GatewaySession
import HftEngine.Theorems.Histogram
import HftEngine.Theorems.HistogramIndex
import HftEngine.Theorems.HistogramMerge
import HftEngine.Theorems.ItchParser
import HftEngine.Theorems.Latch
import HftEngine.Theorems.LatencyTags
import HftEngine.Theorems.Lifecycle
import HftEngine.Theorems.MarketPath
import HftEngine.Theorems.NumberRuns
import HftEngine.Theorems.OrderGateway
import HftEngine.Theorems.OrderLoop
import HftEngine.Theorems.OrderPath
import HftEngine.Theorems.OrderProtocol
import HftEngine.Theorems.Polls
import HftEngine.Theorems.Positions
import HftEngine.Theorems.QueueObservers
import HftEngine.Theorems.QuoteFeed
import HftEngine.Theorems.RateMeter
import HftEngine.Theorems.Replay
import HftEngine.Theorems.ReplayTool
import HftEngine.Theorems.RestingOrders
import HftEngine.Theorems.RingChannel
import HftEngine.Theorems.RingEngine
import HftEngine.Theorems.RiskGate
import HftEngine.Theorems.RiskTrace
import HftEngine.Theorems.Shutdown
import HftEngine.Theorems.SimExchange
import HftEngine.Theorems.SpscQueue
import HftEngine.Theorems.StageMoves
import HftEngine.Theorems.Stages
import HftEngine.Theorems.Strategy
import HftEngine.Theorems.StrategyPath
import HftEngine.Theorems.TradingSession
import HftEngine.TradingSession
