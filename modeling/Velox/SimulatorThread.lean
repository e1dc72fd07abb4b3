import Velox.SimulatorQuotes
import Velox.MarketStateStore

namespace Velox
set_option autoImplicit true

/-- Only the best prices are stored; the levels stay as they are. -/
def OrderBook.setMarketPrice (bid ask : Int64) (b : OrderBook) : OrderBook :=
  { b with mBestBid := bid, mBestAsk := ask }

def SymbolEngine.setMarketPrice (bid ask : Int64) (e : SymbolEngine) : SymbolEngine :=
  { e with mBook := e.mBook.setMarketPrice bid ask }

/-- The handles are destroyed, which releases the cells. The books are not told. -/
def MarketSimulator.clearRestingOrders (m : MarketSimulator) : MarketSimulator :=
  { m with mActiveOrders := fun _ => none, mSymbolOrders := fun _ => none }

structure SimulatorSettings where
  mInitialPrices : SymbolPriceMap := fun _ => none
  mDefaultInitialPrice : Int64 := 10000
  mMinSpread : Int64 := 5
  mMaxSpread : Int64 := 50

namespace SimulatorSettings

def getInitialPrice (c : SimulatorSettings) (symbol : List UInt8) : Int64 :=
  (c.mInitialPrices symbol).getD c.mDefaultInitialPrice

/-- What `m_spread_dist` may draw. -/
def MayDraw (c : SimulatorSettings) (spread : Int64) : Prop :=
  c.mMinSpread ≤ spread ∧ spread ≤ c.mMaxSpread

end SimulatorSettings

/-- The random walk: `delta` is the draw of the normal distribution, cut to an integer. -/
def randomWalk (price delta : Int64) : Int64 :=
  let newPrice := price + delta
  let newPrice := if newPrice < 100 then 100 else newPrice
  if newPrice > 1000000 then 1000000 else newPrice

def bidAsk (price spread : Int64) : Int64 × Int64 :=
  let bid := price - spread / 2
  let ask := price + spread / 2
  (if bid < 1 then 1 else bid, if ask > 999999 then 999999 else ask)

/-- The simulator's thread: `turn` counts the engines that it has initialised, then its ticks. The map
of the last update prices is static. `shown` has the prices of the last tick of each engine. -/
structure SimulatorThread (n : ℕ) where
  market : Simulation n
  turn : ℕ := 0
  currentPrices : List UInt8 → Int64 := fun _ => 0
  lastUpdatePrice : List UInt8 → Int64 := fun _ => 0
  shown : Fin n → Option (Int64 × Int64) := fun _ => none

/-- An engine is initialised, or ticks: then the callback is called with its new prices. -/
inductive SimulatorEvent (n : ℕ)
  | opened (i : Fin n)
  | ticked (i : Fin n) (bid ask : Int64)

namespace Simulation

variable {n : ℕ}

def setMarketPrice (s : Simulation n) (i : Fin n) (bid ask : Int64) : Simulation n :=
  { s with engines := Function.update s.engines i ((s.engines i).setMarketPrice bid ask) }

end Simulation

namespace SimulatorThread

variable {n : ℕ}

def start (symbols : Fin n → List UInt8) (shared : Fin n → Collaborators)
    (restingQuantity : UInt32) : SimulatorThread n where
  market := .start symbols shared restingQuantity

def symbol (s : SimulatorThread n) (i : Fin n) : List UInt8 := (s.market.engines i).symbol

def «open» (c : SimulatorSettings) (i : Fin n) (pool : Option OrderCell × Option OrderCell)
    (s : SimulatorThread n) : Option (SimulatorThread n) :=
  let initialPrice := c.getInitialPrice (s.symbol i)
  (s.market.perform pool (.init i initialPrice)).map fun m => { s with
    market := m
    turn := s.turn + 1
    currentPrices := Function.update s.currentPrices (s.symbol i) initialPrice }

/-- One engine's part of a round. The resting orders follow only when the price has moved by more
than ten since they did last. -/
def tick (i : Fin n) (delta spread : Int64) (pool : Option OrderCell × Option OrderCell)
    (s : SimulatorThread n) : Option (SimulatorThread n) :=
  let newPrice := randomWalk (s.currentPrices (s.symbol i)) delta
  let prices := bidAsk newPrice spread
  let t := { s with
    market := s.market.setMarketPrice i prices.1 prices.2
    turn := s.turn + 1
    currentPrices := Function.update s.currentPrices (s.symbol i) newPrice
    shown := Function.update s.shown i (some prices) }
  if (newPrice - s.lastUpdatePrice (s.symbol i)).abs > 10 then
    (t.market.perform pool (.update i prices.1 prices.2)).map fun m => { t with
      market := m
      lastUpdatePrice := Function.update s.lastUpdatePrice (s.symbol i) newPrice }
  else some t

/-- The engines are initialised in order; then they tick in rounds, for as long as the thread runs. -/
inductive Step (c : SimulatorSettings) : SimulatorThread n → SimulatorEvent n → SimulatorThread n → Prop
  | «open» {s t : SimulatorThread n} {i : Fin n} {pool : Option OrderCell × Option OrderCell}
      (hi : i.val = s.turn) (hp : s.market.sim.MayAnswer pool) (h : s.open c i pool = some t) :
      Step c s (.opened i) t
  | tick {s t : SimulatorThread n} {i : Fin n} {delta spread : Int64}
      {pool : Option OrderCell × Option OrderCell} (hn : n ≤ s.turn) (hi : i.val = s.turn % n)
      (hd : c.MayDraw spread) (hp : s.market.sim.MayAnswer pool)
      (h : s.tick i delta spread pool = some t) :
      Step c s (.ticked i (bidAsk (randomWalk (s.currentPrices (s.symbol i)) delta) spread).1
        (bidAsk (randomWalk (s.currentPrices (s.symbol i)) delta) spread).2) t

/-- The thread has ended, and the simulator lets go of its resting orders. -/
def stop (s : SimulatorThread n) : SimulatorThread n :=
  { s with market := { s.market with sim := s.market.sim.clearRestingOrders } }

end SimulatorThread

end Velox
