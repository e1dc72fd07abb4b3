import Velox.OrderBook
import Velox.RiskManager
import Velox.ExecutionGateway
import Velox.PositionManager

namespace Velox
set_option autoImplicit true

abbrev OrderQueue := SPSCQueue OrderPtr 65536

structure MatchingEngine where
  mOrderBook : OrderBook
  mIncomingOrders : OrderQueue := {}
  mMatchCount : UInt64 := 0
  mRejectCount : UInt64 := 0
  mPartialCount : UInt64 := 0

/-- The objects that engines point to; `none` is a null pointer. -/
structure Collaborators where
  riskManager : Option RiskManager := none
  gateway : Option ExecutionGateway := none
  positionManager : Option PositionManager := none

/-- What the engine works on: itself, the objects it points to and the orders in memory. -/
structure EngineRun where
  engine : MatchingEngine
  shared : Collaborators
  orders : OrderHeap

/-- What a call of `process_order` did: its risk check, its fill list and its calls of
`update_position`. -/
structure Outcome where
  accepted : Bool
  fills : List Fill := []
  bookings : List Booking := []
  deriving DecidableEq

/-- Convert market orders to aggressive limit orders. -/
def Order.toLimit (o : Order) : Order :=
  if o.type = .MARKET then
    { o with price := if o.isBuy then Int64.maxValue else 0, type := .LIMIT }
  else o

/-- The status that `process_order` gives the order it has matched. -/
def Order.settledStatus (o : Order) : OrderStatus :=
  if o.remainingQuantity = 0 then .FILLED
  else if o.filledQuantity > 0 then .PARTIAL
  else .NEW

def setStatus (p : OrderPtr) (status : OrderStatus) (orders : OrderHeap) : OrderHeap :=
  Function.update orders p { orders p with status }

def makerBookings (orders : OrderHeap) (fills : List Fill) : List Booking :=
  fills.map fun f => ⟨f.order, f.quantity, (orders f.order).price⟩

/-- The taker is booked once, with all it has filled, at its own price. -/
def takerBookings (orders : OrderHeap) (p : OrderPtr) : List Booking :=
  if (orders p).filledQuantity > 0 then [⟨p, (orders p).filledQuantity, (orders p).price⟩] else []

def MatchingEngine.new (symbol : List UInt8) : MatchingEngine :=
  { mOrderBook := OrderBook.new symbol }

def Collaborators.checkRisk (order : Order) (c : Collaborators) : Bool :=
  match c.riskManager with
  | none => true
  | some risk => risk.checkOrder (some order)

namespace EngineRun

def rejection (o : Order) : ExecutionReport where
  orderId := o.orderId
  clientOrderId := o.clientOrderId
  symbol := o.symbol.copy
  status := .REJECTED
  rejectReason := some "Risk limit exceeded"

/-- The gateway is used here without a check for a null pointer. -/
def reject (p : OrderPtr) (s : EngineRun) : Option EngineRun :=
  let s := { s with
    engine.mRejectCount := s.engine.mRejectCount + 1
    orders := setStatus p .REJECTED s.orders }
  s.shared.gateway.bind fun g => (g.sendReport (rejection (s.orders p)) (-1)).map fun r =>
    { s with shared.gateway := some r.2 }

/-- Calls of `update_position`, if there is a position manager. -/
def book (bs : List Booking) (s : EngineRun) : EngineRun :=
  { s with shared.positionManager := s.shared.positionManager.map (·.book s.orders bs) }

def sendFill (p : OrderPtr) (fillQuantity : UInt32) (fillPrice : Int64) (s : EngineRun) :
    Option EngineRun :=
  match s.shared.gateway with
  | none => some (s.book [⟨p, fillQuantity, fillPrice⟩])
  | some g => (g.sendOrder (some (s.orders p)) (-1)).map fun r =>
    { s with shared.gateway := some r.2 }.book [⟨p, fillQuantity, fillPrice⟩]

/-- Send fills for the executed portion. -/
def sendFills (p : OrderPtr) (fills : List Fill) (s : EngineRun) : Option EngineRun :=
  let o := s.orders p
  if o.filledQuantity > 0 then
    (s.sendFill p o.filledQuantity o.price).map fun s =>
      { s with
        engine.mMatchCount := s.engine.mMatchCount +
          UInt64.ofNat (if fills.isEmpty then 1 else fills.length) }
  else some s

/-- Count the partial fill and set the status, after matching. -/
def finalize (p : OrderPtr) (s : EngineRun) : EngineRun :=
  let o := s.orders p
  { s with
    engine.mPartialCount :=
      if o.filledQuantity > 0 ∧ o.remainingQuantity > 0 then s.engine.mPartialCount + 1
      else s.engine.mPartialCount
    orders := setStatus p o.settledStatus s.orders }

/-- There is no result when the source does not return or uses a null pointer. -/
def processOrder (p : OrderPtr) (s : EngineRun) : Option (Outcome × EngineRun) :=
  if s.shared.checkRisk (s.orders p) = false then
    (s.reject p).map fun s => ({ accepted := false }, s)
  else
    let orders := Function.update s.orders p (s.orders p).toLimit
    (OrderBook.match (some p) ⟨s.engine.mOrderBook, orders, []⟩).bind fun (_, u) =>
      let s := { s with engine.mOrderBook := u.book, orders := u.orders }
      let makers := makerBookings s.orders u.fills
      ((s.book makers).sendFills p u.fills).map fun s =>
        ({ accepted := true, fills := u.fills, bookings := makers ++ takerBookings s.orders p },
          s.finalize p)

def cancelOrder (id : UInt64) (s : EngineRun) : Bool × EngineRun :=
  let r := s.engine.mOrderBook.cancelOrder id s.orders
  (r.1, { s with engine.mOrderBook := r.2.1, orders := r.2.2 })

def submitOrder (order : Option OrderPtr) (s : EngineRun) : Bool × EngineRun :=
  match order with
  | none => (false, s)
  | some p =>
    let r := s.engine.mIncomingOrders.push p
    (r.1, { s with engine.mIncomingOrders := r.2 })

def matchCycleBody (s : EngineRun) : Option (EngineRun ⊕ EngineRun) :=
  match s.engine.mIncomingOrders.pop with
  | none => some (.inl s)
  | some (p, queue) =>
    (processOrder p { s with engine.mIncomingOrders := queue }).map fun r => .inr r.2

/-- The queue bounds the turns: nothing is submitted during the cycle. -/
def runMatchCycle (s : EngineRun) : Option EngineRun :=
  Loop.run matchCycleBody (s.engine.mIncomingOrders.items.length + 1) s

end EngineRun

end Velox
