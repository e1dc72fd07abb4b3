import Velox.BookSnapshot
import Velox.Lockfree

namespace Velox
set_option autoImplicit true

/-- `strncpy` of seven characters into a member of zeros. -/
def Symbol.ofString (s : List UInt8) : Symbol := .ofChars ((s.takeWhile (· ≠ 0)).take 7)

/-- What the random generators give a bot for a snapshot. The draws of `rand01` are only compared. -/
structure Draws where
  action : ℚ := 1
  spike : ℚ := 1
  side : ℚ := 1
  size : UInt32 := 0

/-- An order as every bot fills it in. -/
def botOrder (id : UInt64) (side : OrderSide) (price : Int64) (quantity : UInt32)
    (symbol : List UInt8) : Order where
  orderId := id
  side := side
  price := price
  quantity := quantity
  remainingQuantity := quantity
  symbol := .ofString symbol

structure MarketMakerBot where
  mBasePrice : Int64 := 10000
  mSpread : Int64 := 100
  mQuantity : UInt32 := 500
  mOrderId : UInt64 := 50000

namespace MarketMakerBot

def place (side : OrderSide) (price : Int64) (symbol : List UInt8) (b : MarketMakerBot) :
    MarketMakerBot × List Order :=
  ({ b with mOrderId := b.mOrderId + 1 },
    [botOrder (b.mOrderId + 1) side price b.mQuantity symbol])

/-- The count of updates is one for all market makers: every tenth call does something. -/
def onSnapshot (symbol : List UInt8) (snapshot : BookSnapshot) (updateCount : Int32)
    (b : MarketMakerBot) : MarketMakerBot × List Order × Int32 :=
  if (updateCount + 1) % 10 ≠ 0 then (b, [], updateCount + 1) else
  let bidPrice := b.mBasePrice - b.mSpread / 2
  let askPrice := b.mBasePrice + b.mSpread / 2
  let bid := if snapshot.bestBid ≥ bidPrice then (b, []) else b.place .BUY bidPrice symbol
  let ask := if snapshot.bestAsk ≤ askPrice then (bid.1, []) else bid.1.place .SELL askPrice symbol
  let b := if snapshot.midPrice > 0 then { ask.1 with mBasePrice := snapshot.midPrice.toInt64 }
    else ask.1
  (b, bid.2 ++ ask.2, updateCount + 1)

end MarketMakerBot

/-- What the other bots have in common: their numbers, and the snapshots until an order that they
placed is considered expired. -/
structure OpenOrders where
  mQuantity : UInt32 := 100
  mOrderId : UInt64
  mOpenOrderTtls : List Int32 := []

namespace OpenOrders

def maxOpenOrders : ℕ := 3

def orderTtl : Int32 := 1000

/-- Decrement TTLs and remove expired. -/
def expire (b : OpenOrders) : OpenOrders :=
  { b with mOpenOrderTtls := (b.mOpenOrderTtls.map (· - 1)).filter (0 < ·) }

def submit (order : Order) (ttl : Int32) (b : OpenOrders) : OpenOrders × List Order :=
  ({ b with mOrderId := order.orderId, mOpenOrderTtls := b.mOpenOrderTtls ++ [ttl] }, [order])

/-- A number is drawn first; the order is submitted if not too many are open. -/
def place (side : OrderSide) (price : Int64) (symbol : List UInt8) (b : OpenOrders) :
    OpenOrders × List Order :=
  if b.mOpenOrderTtls.length < maxOpenOrders then
    b.submit (botOrder (b.mOrderId + 1) side price b.mQuantity symbol) orderTtl
  else ({ b with mOrderId := b.mOrderId + 1 }, [])

/-- A number is drawn only if not too many orders are open. -/
def placeChecked (side : OrderSide) (price : Int64) (symbol : List UInt8) (b : OpenOrders) :
    OpenOrders × List Order :=
  if b.mOpenOrderTtls.length < maxOpenOrders then
    b.submit (botOrder (b.mOrderId + 1) side price b.mQuantity symbol) orderTtl
  else (b, [])

end OpenOrders

structure SpreadBot extends OpenOrders where
  mOrderId := 10000
  mThreshold : Int64 := 5
  mLastSpread : Int64 := 0

namespace SpreadBot

def onSnapshot (snapshot : BookSnapshot) (b : SpreadBot) : SpreadBot × List Order :=
  let orders := b.toOpenOrders.expire
  if b.mLastSpread = 0 then
    ({ b with toOpenOrders := orders, mLastSpread := snapshot.spread }, [])
  else
    let spreadChange := snapshot.spread - b.mLastSpread
    let r :=
      if spreadChange > b.mThreshold then
        orders.place .BUY snapshot.bestAsk snapshot.symbol.cstr
      else if spreadChange < -b.mThreshold then
        orders.place .SELL snapshot.bestBid snapshot.symbol.cstr
      else (orders, [])
    ({ b with toOpenOrders := r.1, mLastSpread := snapshot.spread }, r.2)

end SpreadBot

/-- The probabilities are the doubles nearest to 0.3, 0.2 and 0.01. -/
structure RandomWalkBot extends OpenOrders where
  mOrderId := 20000
  mBuyProb : ℚ := 5404319552844595 / 2 ^ 54
  mSellProb : ℚ := 7205759403792794 / 2 ^ 55
  mSpikeProb : ℚ := 5764607523034235 / 2 ^ 59
  mSpikeCooldown : Int32 := 0

namespace RandomWalkBot

def spikeCooldownDefault : Int32 := 2000

def spikeTtl : Int32 := 1500

/-- Rare spike: large market order with cooldown. -/
def placeSpike (draws : Draws) (symbol : List UInt8) (b : OpenOrders) : OpenOrders × List Order :=
  let quantity := b.mQuantity * (3 + draws.size % 5)
  let side := if draws.side < 1 / 2 then .BUY else .SELL
  b.submit { botOrder (b.mOrderId + 1) side 0 quantity symbol with type := .MARKET } spikeTtl

def onSnapshot (snapshot : BookSnapshot) (draws : Draws) (b : RandomWalkBot) :
    RandomWalkBot × List Order :=
  let orders := b.toOpenOrders.expire
  let spikes := draws.spike < b.mSpikeProb ∧ b.mSpikeCooldown = 0 ∧ orders.mOpenOrderTtls = []
  let r :=
    if draws.action < b.mBuyProb then
      (orders.placeChecked .BUY snapshot.bestAsk snapshot.symbol.cstr, b.mSpikeCooldown)
    else if draws.action < b.mBuyProb + b.mSellProb then
      (orders.placeChecked .SELL snapshot.bestBid snapshot.symbol.cstr, b.mSpikeCooldown)
    else if spikes then (placeSpike draws snapshot.symbol.cstr orders, spikeCooldownDefault)
    else ((orders, []), b.mSpikeCooldown)
  ({ b with
      toOpenOrders := r.1.1
      mSpikeCooldown := if r.2 > 0 then r.2 - 1 else r.2 }, r.1.2)

end RandomWalkBot

structure MeanReversionBot extends OpenOrders where
  mOrderId := 30000
  mLookback : ℕ := 20
  mZThreshold : Float := 2
  mPrices : List Float := []

namespace MeanReversionBot

def calculateMean (prices : List Float) : Float :=
  prices.foldl (· + ·) 0 / prices.length.toFloat

def calculateStddev (mean : Float) (prices : List Float) : Float :=
  (prices.foldl (fun sumSq p => sumSq + (p - mean) * (p - mean)) 0 / prices.length.toFloat).sqrt

def onSnapshot (snapshot : BookSnapshot) (b : MeanReversionBot) : MeanReversionBot × List Order :=
  let orders := b.toOpenOrders.expire
  let prices := b.mPrices ++ [snapshot.midPrice]
  let prices := if prices.length > b.mLookback then prices.tail else prices
  let mean := calculateMean prices
  let stddev := calculateStddev mean prices
  let zScore := (snapshot.midPrice - mean) / stddev
  let r :=
    if prices.length < b.mLookback then (orders, [])
    else if stddev < 1e-6 then (orders, [])
    else if zScore > b.mZThreshold then
      orders.place .SELL snapshot.bestBid snapshot.symbol.cstr
    else if zScore < -b.mZThreshold then
      orders.place .BUY snapshot.bestAsk snapshot.symbol.cstr
    else (orders, [])
  ({ b with toOpenOrders := r.1, mPrices := prices }, r.2)

end MeanReversionBot

structure MomentumBot extends OpenOrders where
  mOrderId := 40000
  mMomentumThreshold : Int64 := 15
  mPrevPrice : Int64 := 0

namespace MomentumBot

def onSnapshot (snapshot : BookSnapshot) (b : MomentumBot) : MomentumBot × List Order :=
  let orders := b.toOpenOrders.expire
  if b.mPrevPrice = 0 then
    ({ b with toOpenOrders := orders, mPrevPrice := snapshot.midPrice.toInt64 }, [])
  else
    let change := (snapshot.midPrice - b.mPrevPrice.toFloat).toInt64
    let r :=
      if change > b.mMomentumThreshold then
        orders.place .BUY snapshot.bestAsk snapshot.symbol.cstr
      else if change < -b.mMomentumThreshold then
        orders.place .SELL snapshot.bestBid snapshot.symbol.cstr
      else (orders, [])
    ({ b with toOpenOrders := r.1, mPrevPrice := snapshot.midPrice.toInt64 }, r.2)

end MomentumBot

end Velox
