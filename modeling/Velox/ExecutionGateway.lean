import Velox.Order
import Velox.Lockfree

namespace Velox
set_option autoImplicit true

/-- The address of a report in the pool. -/
abbrev ReportPtr := ℕ

structure ExecutionReport where
  orderId : UInt64 := 0
  clientOrderId : UInt64 := 0
  symbol : Symbol := Vector.replicate 8 0
  side : OrderSide := .BUY
  status : OrderStatus := .NEW
  executedQuantity : UInt32 := 0
  executedPrice : Int64 := 0
  timestamp : UInt64 := 0
  rejectReason : Option String := none
  deriving DecidableEq, Inhabited

/-- `strncpy` of seven bytes into a member whose eighth is zero. -/
def Symbol.copy (src : Symbol) : Symbol :=
  Vector.ofFn fun i => if i.val < 7 then src.cstr.getD i.val 0 else 0

abbrev ReportQueue := SPSCQueue ReportPtr 4096

/-- `acquires n` is what the pool answers to the acquisition after the first `n`, a free report or
none; the handle is destroyed, and the report free again, when `send_report` returns. -/
structure ExecutionGateway where
  mWorkerQueues : List ReportQueue := []
  reports : ReportPtr → ExecutionReport := fun _ => {}
  acquires : ℕ → Option ReportPtr
  acquired : ℕ := 0
  mTotalReports : UInt64 := 0
  mTotalOrders : UInt64 := 0
  mNextWorker : Int32 := 0

/-- The report that `send_order` makes of an order. -/
def orderReport (o : Order) : ExecutionReport where
  orderId := o.orderId
  clientOrderId := o.clientOrderId
  side := o.side
  executedQuantity := o.filledQuantity
  executedPrice := o.price
  status := o.status
  timestamp := o.matchedTimestamp
  symbol := o.symbol.copy

namespace ExecutionGateway

def addWorker (g : ExecutionGateway) : ExecutionGateway :=
  { g with mWorkerQueues := g.mWorkerQueues ++ [{}] }

/-- A negative id selects the next worker in turn; the cursor is converted to `size_t` before the
remainder is taken. -/
def selectWorker (workerId : Int32) (g : ExecutionGateway) : Int32 × ExecutionGateway :=
  if workerId < 0 then
    ((g.mNextWorker.toInt64.toUInt64 % UInt64.ofNat g.mWorkerQueues.length).toUInt32.toInt32,
      { g with mNextWorker := g.mNextWorker + 1 })
  else (workerId, g)

/-- Without a free report the source dereferences a null pointer; there is no result then. -/
def sendReport (report : ExecutionReport) (workerId : Int32) (g : ExecutionGateway) :
    Option (Bool × ExecutionGateway) :=
  if g.mWorkerQueues.isEmpty then some (false, g) else
  let (workerId, g) := g.selectWorker workerId
  if workerId ≥ Int32.ofNat g.mWorkerQueues.length then some (false, g) else
  (g.acquires g.acquired).map fun out =>
    let g := { g with
      acquired := g.acquired + 1
      reports := Function.update g.reports out { report with symbol := report.symbol.copy } }
    let worker := workerId.toInt.toNat
    let (success, queue) := (g.mWorkerQueues.getD worker {}).push out
    (success, { g with
      mWorkerQueues := g.mWorkerQueues.set worker queue
      mTotalReports := if success then g.mTotalReports + 1 else g.mTotalReports })

def sendOrder (order : Option Order) (workerId : Int32) (g : ExecutionGateway) :
    Option (Bool × ExecutionGateway) :=
  match order with
  | none => some (false, g)
  | some o => sendReport (orderReport o) workerId { g with mTotalOrders := g.mTotalOrders + 1 }

/-- The report is read when the call returns. -/
def receiveReport (workerId : Int32) (g : ExecutionGateway) :
    Option ExecutionReport × ExecutionGateway :=
  if workerId < 0 ∨ workerId ≥ Int32.ofNat g.mWorkerQueues.length then (none, g) else
  let worker := workerId.toInt.toNat
  match (g.mWorkerQueues.getD worker {}).pop with
  | none => (none, g)
  | some (out, queue) =>
    (some (g.reports out), { g with mWorkerQueues := g.mWorkerQueues.set worker queue })

end ExecutionGateway

end Velox
