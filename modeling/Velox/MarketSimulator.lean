import Velox.SymbolEngine
import Velox.Lib.Runs

namespace Velox
set_option autoImplicit true

/-- `strncpy` of seven characters over what a `char[8]` member holds. -/
def Symbol.overwrite (src : List UInt8) (s : Symbol) : Symbol :=
  Vector.ofFn fun i => if i.val < 7 then src.getD i 0 else s.get i

/-- The C string that `symbol()` points to. -/
def SymbolEngine.symbol (e : SymbolEngine) : List UInt8 := e.mBook.mSymbol.takeWhile (· ≠ 0)

/-- The number of cells in `m_order_pool`. -/
def orderPoolSize : ℕ := 100000

/-- An acquired cell and what it holds: the pool may or may not have cleared it. -/
abbrev OrderCell := OrderPtr × Order

structure SymbolOrders where
  bidOrderId : UInt64 := 0
  askOrderId : UInt64 := 0
  currentBidPrice : Int64 := 0
  currentAskPrice : Int64 := 0

structure ActiveOrders where
  bid : OrderPtr
  ask : OrderPtr

def ActiveOrders.cells (a : ActiveOrders) : List OrderPtr := [a.ask, a.bid]

/-- The simulator's resting orders. `orders` is what the cells of the pool hold. -/
structure MarketSimulator where
  mRestingQuantity : Int32 := 500
  mSymbolOrders : List UInt8 → Option SymbolOrders := fun _ => none
  mActiveOrders : List UInt8 → Option ActiveOrders := fun _ => none
  mNextOrderId : UInt64 := 1000000
  orders : OrderHeap := fun _ => default

namespace MarketSimulator

def new (restingQuantity : UInt32) : MarketSimulator :=
  { mRestingQuantity := restingQuantity.toInt32 }

/-- The order that is written into a cell; the members that are not set keep what the cell held. -/
def restingOrder (side : OrderSide) (price : Int64) (symbol : List UInt8) (cell : Order)
    (m : MarketSimulator) : Order :=
  { cell with
    orderId := m.mNextOrderId + 1
    side
    price
    quantity := m.mRestingQuantity.toUInt32
    remainingQuantity := m.mRestingQuantity.toUInt32
    filledQuantity := 0
    status := .NEW
    symbol := cell.symbol.overwrite symbol }

/-- A handle to the cell is stored; every other cell is free. -/
def Held (m : MarketSimulator) (p : OrderPtr) : Prop :=
  ∃ symbol a, m.mActiveOrders symbol = some a ∧ p ∈ a.cells

/-- What `acquire` may answer while some cells are taken: any free cell, and nothing only when there
is none. -/
def MayAcquire (taken : OrderPtr → Prop) : Option OrderCell → Prop
  | some cell => cell.1 < orderPoolSize ∧ ¬ taken cell.1
  | none => ∀ p < orderPoolSize, taken p

/-- What the pool may answer to the two acquisitions of a call. -/
def MayAnswer (m : MarketSimulator) (pool : Option OrderCell × Option OrderCell) : Prop :=
  MayAcquire m.Held pool.1 ∧
    MayAcquire (fun p => m.Held p ∨ pool.1.map Prod.fst = some p) pool.2

end MarketSimulator

structure SimulatorRun where
  engine : SymbolEngine
  sim : MarketSimulator

namespace SimulatorRun

/-- Create a resting order and add it to the book that the engine shows. -/
def place (side : OrderSide) (price : Int64) (cell : OrderCell) (s : SimulatorRun) : SimulatorRun :=
  let orders := Function.update s.sim.orders cell.1
    (s.sim.restingOrder side price s.engine.symbol cell.2)
  { engine := { s.engine with mBook := (s.engine.mBook.addOrder (some cell.1) orders).2 }
    sim := { s.sim with mNextOrderId := s.sim.mNextOrderId + 1, orders } }

def cancel (id : UInt64) (s : SimulatorRun) : SimulatorRun :=
  let r := s.engine.mBook.cancelOrder id s.sim.orders
  { engine := { s.engine with mBook := r.2.1 }
    sim := { s.sim with orders := r.2.2 } }

/-- Store the handles, which releases the cells held before, and the metadata. -/
def store (bid ask : OrderPtr) (bidPrice askPrice : Int64) (s : SimulatorRun) : SimulatorRun :=
  { s with
    sim := { s.sim with
      mActiveOrders := Function.update s.sim.mActiveOrders s.engine.symbol (some ⟨bid, ask⟩)
      mSymbolOrders := Function.update s.sim.mSymbolOrders s.engine.symbol (some {
        bidOrderId := s.sim.mNextOrderId - 1
        askOrderId := s.sim.mNextOrderId
        currentBidPrice := bidPrice
        currentAskPrice := askPrice }) } }

/-- Without a cell for the bid it throws. After the second acquisition it is the bid that is checked
again, so without a cell for the ask it dereferences a null pointer. There is no result in either
case. -/
def initializeRestingOrders (initialPrice : Int64) (pool : Option OrderCell × Option OrderCell)
    (s : SimulatorRun) : Option SimulatorRun :=
  let bidPrice := initialPrice - 10
  let askPrice := initialPrice + 10
  pool.1.bind fun bid => pool.2.map fun ask =>
    ((s.place .BUY bidPrice bid).place .SELL askPrice ask).store bid.1 ask.1 bidPrice askPrice

/-- Without a cell for the bid it returns with the old orders cancelled; without one for the ask it
dereferences a null pointer, and there is no result. -/
def updateRestingOrders (bidPrice askPrice : Int64) (pool : Option OrderCell × Option OrderCell)
    (s : SimulatorRun) : Option SimulatorRun :=
  match s.sim.mSymbolOrders s.engine.symbol with
  | none => some s
  | some orders =>
    if orders.currentBidPrice = bidPrice ∧ orders.currentAskPrice = askPrice then some s else
    let s := (s.cancel orders.bidOrderId).cancel orders.askOrderId
    match pool.1 with
    | none => some s
    | some bid => pool.2.map fun ask =>
      ((s.place .BUY bidPrice bid).place .SELL askPrice ask).store bid.1 ask.1 bidPrice askPrice

end SimulatorRun

/-- The simulator and its engines, with the prices last set for each engine, if any. -/
structure Simulation (n : ℕ) where
  engines : Fin n → SymbolEngine
  sim : MarketSimulator
  quoted : Fin n → Option (Int64 × Int64) := fun _ => none

inductive SimulatorCall (n : ℕ)
  | init (i : Fin n) (initialPrice : Int64)
  | update (i : Fin n) (bidPrice askPrice : Int64)

namespace Simulation

variable {n : ℕ}

def start (symbols : Fin n → List UInt8) (shared : Fin n → Collaborators)
    (restingQuantity : UInt32) : Simulation n where
  engines := fun i => SymbolEngine.new (symbols i) (shared i)
  sim := MarketSimulator.new restingQuantity

/-- The symbols of the engines, cut off after seven characters. -/
def startSymbols (symbols : Fin n → List UInt8) (shared : Fin n → Collaborators) :
    Fin n → List UInt8 := fun i => (SymbolEngine.new (symbols i) (shared i)).symbol

def run (s : Simulation n) (i : Fin n) : SimulatorRun := ⟨s.engines i, s.sim⟩

def put (s : Simulation n) (i : Fin n) (r : SimulatorRun) (prices : Option (Int64 × Int64)) :
    Simulation n where
  engines := Function.update s.engines i r.engine
  sim := r.sim
  quoted := Function.update s.quoted i prices

/-- An update sets no prices for an engine that is not initialised. -/
def perform (s : Simulation n) (pool : Option OrderCell × Option OrderCell) :
    SimulatorCall n → Option (Simulation n)
  | .init i initialPrice =>
    ((s.run i).initializeRestingOrders initialPrice pool).map fun r =>
      s.put i r (some (initialPrice - 10, initialPrice + 10))
  | .update i bidPrice askPrice =>
    ((s.run i).updateRestingOrders bidPrice askPrice pool).map fun r =>
      s.put i r ((s.quoted i).map fun _ => (bidPrice, askPrice))

/-- Each engine is initialised once, and the prices of an update are apart. -/
def Permitted (s : Simulation n) : SimulatorCall n → Prop
  | .init i _ => s.quoted i = none
  | .update _ bidPrice askPrice => bidPrice < askPrice

inductive Step : Simulation n → SimulatorCall n → Simulation n → Prop
  | call {s t : Simulation n} {c : SimulatorCall n} {pool : Option OrderCell × Option OrderCell}
      (hc : s.Permitted c) (hp : s.sim.MayAnswer pool) (h : s.perform pool c = some t) : Step s c t

end Simulation

end Velox
