import Velox.Lib.BigEndian
import Velox.Reference
import Velox.Termination
import Velox.Consistency
import Velox.Quotes
import Velox.CancelAnswers
import Velox.TradePrices
import Velox.StatusTruth
import Velox.CellReuse
import Velox.ShownBook
import Velox.SnapshotSafety
import Velox.SnapshotLoop
import Velox.ReportIntegrity
import Velox.BookLocality
import Velox.EngineLocality
import Velox.EngineIsolation
import Velox.FeedHandler
import Velox.FeedFraming
import Velox.CreateItch
import Velox.ItchParser
import Velox.EntryPrice
import Velox.PositionCheck
import Velox.LevelQueue
import Velox.ExactPositions
import Velox.Market
import Velox.RefusedOrders
import Velox.ReportSums
import Velox.Adding
import Velox.SimulatorQuotes
import Velox.PositionQueries
import Velox.OpenOrderLimits
import Velox.MarketStateStore
import Velox.FixMessages
import Velox.RoundRobin
import Velox.FeedErrors
import Velox.SlotDropping
import Velox.UpdateCounts
import Velox.QuoteFailures
import Velox.BestExecution
import Velox.TimePriority
import Velox.SnapshotOrder
import Velox.SnapshotProgress
import Velox.MarketSession
import Velox.ReplayTool
import Velox.SnapshotVersions
import Velox.TradingFloor
import Velox.UnseenTrading
import Velox.BotDelivery
import Velox.EngineCounts
import Velox.FloorBooks
import Velox.FloorPositions
import Velox.OrderLifecycle
import Velox.FixSession
