import Velox.Order

namespace Velox
set_option autoImplicit true

/-- The record that the risk manager keeps in a bucket. -/
structure RiskPosition where
  longPosition : UInt32 := 0
  shortPosition : UInt32 := 0
  limit : UInt32 := 100000
  deriving DecidableEq, Inhabited

structure RiskManager where
  mPositions : Fin 256 → RiskPosition := fun _ => {}
  mCircuitBreaker : Bool := false

namespace RiskManager

/-- A `char` is signed, so that the cast to `uint32_t` extends its sign. -/
def hashSymbol (symbol : List UInt8) : Fin 256 :=
  Fin.ofNat 256 (symbol.foldl (fun hash c => hash * 31 + c.toInt8.toInt32.toUInt32)
    (0 : UInt32)).toNat

def isCircuitBreakerActive (r : RiskManager) : Bool := r.mCircuitBreaker

def activateCircuitBreaker (r : RiskManager) : RiskManager := { r with mCircuitBreaker := true }

def resetCircuitBreaker (r : RiskManager) : RiskManager := { r with mCircuitBreaker := false }

/-- The buy check compares 32-bit values, the sell check 64-bit ones. -/
def checkPosition (order : Option Order) (fillQuantity : UInt32) (r : RiskManager) : Bool :=
  match order with
  | none => false
  | some o =>
    let pos := r.mPositions (hashSymbol o.symbol.cstr)
    if o.isBuy then
      let newLong := pos.longPosition + fillQuantity
      let newShort := pos.shortPosition
      decide (newLong - newShort ≤ pos.limit)
    else
      let newShort := pos.shortPosition + fillQuantity
      let newLong := pos.longPosition
      decide ((newLong - newShort).toUInt64.toInt64 ≥ -pos.limit.toUInt64.toInt64)

def checkOrder (order : Option Order) (r : RiskManager) : Bool :=
  match order with
  | none => false
  | some o =>
    if r.isCircuitBreakerActive then false else
    if o.quantity = 0 then false else
    if o.price < 0 then false else
    r.checkPosition (some o) o.quantity

def setPositionLimit (symbol : List UInt8) (limit : UInt32) (r : RiskManager) : RiskManager :=
  let idx := hashSymbol symbol
  { r with mPositions := Function.update r.mPositions idx { r.mPositions idx with limit } }

def currentPosition (symbol : List UInt8) (r : RiskManager) : UInt32 :=
  let pos := r.mPositions (hashSymbol symbol)
  (pos.longPosition.toUInt64.toInt64 - pos.shortPosition.toUInt64.toInt64).toUInt64.toUInt32

def updatePosition (order : Order) (fillQuantity : UInt32) (r : RiskManager) : RiskManager :=
  let idx := hashSymbol order.symbol.cstr
  let pos := r.mPositions idx
  let pos := if order.isBuy then { pos with longPosition := pos.longPosition + fillQuantity }
    else { pos with shortPosition := pos.shortPosition + fillQuantity }
  { r with mPositions := Function.update r.mPositions idx pos }

end RiskManager

end Velox
