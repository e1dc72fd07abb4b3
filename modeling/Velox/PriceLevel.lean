import Velox.Order
import Velox.Lib.Loop
import Velox.Lib.Ring

namespace Velox
set_option autoImplicit true

/-- `MAX_ORDERS` and `MASK` of a price level's ring. -/
abbrev maxOrders : ℕ := 128

instance : NeZero maxOrders := ⟨by decide⟩

def mask : ℕ := maxOrders - 1

/-- The `size_t` count of a level is a natural number; its indices stay below `MAX_ORDERS`. -/
structure PriceLevel where
  mPrice : Int64
  mBuffer : Fin maxOrders → Option OrderPtr := fun _ => none
  mHead : Fin maxOrders := 0
  mTail : Fin maxOrders := 0
  mTotalQuantity : UInt32 := 0
  mSize : ℕ := 0

instance : Inhabited PriceLevel := ⟨{ mPrice := 0 }⟩

/-- What `match_order` works on: the level, the orders in memory and the caller's fill list. -/
structure LevelRun where
  level : PriceLevel
  orders : OrderHeap
  fills : List Fill

def next (i : Fin maxOrders) : Fin maxOrders :=
  ⟨(i.val + 1) &&& mask, Nat.lt_of_le_of_lt Nat.and_le_right (by decide)⟩

namespace PriceLevel

def price (lvl : PriceLevel) : Int64 := lvl.mPrice

def totalQuantity (lvl : PriceLevel) : UInt32 := lvl.mTotalQuantity

def empty (lvl : PriceLevel) : Bool := lvl.mSize == 0

def head (lvl : PriceLevel) : Option OrderPtr :=
  if lvl.mHead = lvl.mTail then none else lvl.mBuffer lvl.mHead

def tail (lvl : PriceLevel) : Option OrderPtr :=
  if lvl.mHead = lvl.mTail then none else lvl.mBuffer (lvl.mTail - 1)

def addOrder (order : Option OrderPtr) (orders : OrderHeap) (lvl : PriceLevel) : PriceLevel :=
  match order with
  | none => lvl
  | some p =>
    if (orders p).remainingQuantity = 0 then lvl else
    { lvl with
      mBuffer := Function.update lvl.mBuffer lvl.mTail (some p)
      mTail := next lvl.mTail
      mSize := lvl.mSize + 1
      mTotalQuantity := lvl.mTotalQuantity + (orders p).remainingQuantity }

/-- Null the head slot and step over it, without counting it off. -/
def skipHead (lvl : PriceLevel) : PriceLevel :=
  { lvl with
    mBuffer := Function.update lvl.mBuffer lvl.mHead none
    mHead := next lvl.mHead }

/-- Null the head slot, step over it and count it off. -/
def popHead (lvl : PriceLevel) : PriceLevel := { lvl.skipHead with mSize := lvl.mSize - 1 }

def isLive (orders : OrderHeap) (p : OrderPtr) : Bool :=
  (orders p).isActive && decide ((orders p).remainingQuantity > 0)

def advanceBody (orders : OrderHeap) (lvl : PriceLevel) : Option (PriceLevel ⊕ PriceLevel) :=
  if lvl.mHead = lvl.mTail then some (.inl lvl)
  else if (lvl.mBuffer lvl.mHead).any (isLive orders) then some (.inl lvl)
  else some (.inr lvl.popHead)

def used (lvl : PriceLevel) : ℕ := Ring.used lvl.mHead lvl.mTail

/-- The number of ring slots that hold an order, swept or not. -/
def occupied (lvl : PriceLevel) : ℕ :=
  (List.finRange maxOrders).countP fun i => (lvl.mBuffer i).isSome

/-- Each turn of the loop frees a slot, so the slots in use bound the turns. -/
def advance (orders : OrderHeap) (lvl : PriceLevel) : PriceLevel :=
  (Loop.run (advanceBody orders) (lvl.used + 1) lvl).getD lvl

def removeOrder (order : Option OrderPtr) (orders : OrderHeap) (lvl : PriceLevel) :
    PriceLevel × OrderHeap :=
  match order with
  | none => (lvl, orders)
  | some p =>
    if (orders p).isActive = false then (lvl, orders) else
    let orders := Function.update orders p (orders p).cancel
    let lvl := { lvl with mTotalQuantity := lvl.mTotalQuantity - (orders p).remainingQuantity }
    if lvl.mHead ≠ lvl.mTail ∧ lvl.mBuffer lvl.mHead = some p then (lvl.advance orders, orders)
    else (lvl, orders)

/-- Trade the head order against the incoming one at the incoming order's price. -/
def fillHead (incoming current : OrderPtr) (s : LevelRun) : LevelRun :=
  let fill := min (s.orders current).remainingQuantity (s.orders incoming).remainingQuantity
  if fill > 0 then
    let fillPrice := (s.orders incoming).price
    let fills := s.fills ++ [{ order := current, quantity := fill, price := fillPrice }]
    let orders := Function.update s.orders current ((s.orders current).trade fill)
    let orders := Function.update orders incoming ((orders incoming).trade fill)
    let level := { s.level with mTotalQuantity := s.level.mTotalQuantity - fill }
    let level := if (orders current).remainingQuantity = 0 then level.popHead else level
    { level, orders, fills }
  else s

def matchOrderBody (incoming : OrderPtr) (s : LevelRun) : Option (LevelRun ⊕ LevelRun) :=
  if (s.orders incoming).remainingQuantity = 0 then some (.inl s) else
  let s := { s with level := s.level.advance s.orders }
  if s.level.mHead = s.level.mTail then some (.inl s) else
  match s.level.mBuffer s.level.mHead with
  | none => some (.inr { s with level := s.level.skipHead })
  | some current =>
    if (s.orders current).isActive = false ∨ (s.orders current).remainingQuantity = 0 then
      some (.inr { s with level := s.level.skipHead })
    else
      let s := fillHead incoming current s
      if (s.orders incoming).remainingQuantity = 0 then some (.inl s) else some (.inr s)

/-- The loop may take at most one turn more than there are slots in use; it has no result when
that is not enough. -/
def matchOrder (incoming : Option OrderPtr) (s : LevelRun) : Option (Option OrderPtr × LevelRun) :=
  match incoming with
  | none => some (none, s)
  | some p =>
    if (s.orders p).remainingQuantity = 0 then some (none, s) else
    (Loop.run (matchOrderBody p) (s.level.used + 1) s).map fun t =>
      (if (t.orders p).remainingQuantity > 0 then some p else none, t)

end PriceLevel

end Velox
