import Velox.PriceLevel

namespace Velox
set_option autoImplicit true

/-- The address of a price level. -/
abbrev LevelPtr := ℕ

structure OrderLocation where
  price : Int64
  isBid : Bool
  orderPtr : OrderPtr
  deriving DecidableEq

/-- The book of one symbol. `store` holds the price levels allocated with `new` and not yet
deleted, and `nextLevel` is the address the next allocation gets. -/
structure OrderBook where
  mSymbol : List UInt8
  mSequence : UInt64 := 0
  mBestBid : Int64 := 0
  mBestAsk : Int64 := Int64.maxValue
  mBidDepth : UInt32 := 0
  mAskDepth : UInt32 := 0
  mBidLevels : List LevelPtr := []
  mAskLevels : List LevelPtr := []
  mOrderIndex : UInt64 → Option OrderLocation := fun _ => none
  mPriceToLevel : Int64 → Option LevelPtr := fun _ => none
  store : LevelPtr → Option PriceLevel := fun _ => none
  nextLevel : LevelPtr := 0

/-- What `match` works on: the book, the orders in memory and the caller's fill list. -/
structure BookRun where
  book : OrderBook
  orders : OrderHeap
  fills : List Fill

namespace OrderBook

/-- The constructor copies at most seven characters of the symbol. -/
def new (symbol : List UInt8) : OrderBook := { mSymbol := symbol.take 7 }

/-- The level at an address; a deleted level reads as an empty one. -/
def level (b : OrderBook) (l : LevelPtr) : PriceLevel := (b.store l).getD default

def setLevel (b : OrderBook) (l : LevelPtr) (lvl : PriceLevel) : OrderBook :=
  { b with store := Function.update b.store l (some lvl) }

def deleteLevel (b : OrderBook) (l : LevelPtr) : OrderBook :=
  { b with store := Function.update b.store l none }

def newLevel (b : OrderBook) (price : Int64) : LevelPtr × OrderBook :=
  (b.nextLevel, { b.setLevel b.nextLevel { mPrice := price } with nextLevel := b.nextLevel + 1 })

/-- `m_bid_levels` or `m_ask_levels`. -/
def levels (b : OrderBook) (isBid : Bool) : List LevelPtr :=
  if isBid then b.mBidLevels else b.mAskLevels

def setLevels (b : OrderBook) (isBid : Bool) (ls : List LevelPtr) : OrderBook :=
  if isBid then { b with mBidLevels := ls } else { b with mAskLevels := ls }

/-- `m_bid_depth` or `m_ask_depth`. -/
def depth (b : OrderBook) (isBid : Bool) : UInt32 :=
  if isBid then b.mBidDepth else b.mAskDepth

def addDepth (b : OrderBook) (isBid : Bool) (q : UInt32) : OrderBook :=
  if isBid then { b with mBidDepth := b.mBidDepth + q }
  else { b with mAskDepth := b.mAskDepth + q }

def subDepth (b : OrderBook) (isBid : Bool) (q : UInt32) : OrderBook :=
  if isBid then { b with mBidDepth := b.mBidDepth - q }
  else { b with mAskDepth := b.mAskDepth - q }

/-- The side of the book is not looked at. -/
def findLevel (b : OrderBook) (price : Int64) (_isBid : Bool) : Option LevelPtr :=
  b.mPriceToLevel price

/-- The order of a side's levels: bids from high to low, asks from low to high. -/
def ahead (isBid : Bool) (existing price : Int64) : Bool :=
  if isBid then decide (existing > price) else decide (existing < price)

/-- `lower_bound` in a sorted vector stops at the first level that is not ahead of the price. -/
def insertLevel (b : OrderBook) (l : LevelPtr) (isBid : Bool) : OrderBook :=
  let price := (b.level l).price
  let before := fun existing => ahead isBid (b.level existing).price price
  { b with mPriceToLevel := Function.update b.mPriceToLevel price (some l) }.setLevels isBid
    ((b.levels isBid).takeWhile before ++ l :: (b.levels isBid).dropWhile before)

def removeLevel (b : OrderBook) (l : LevelPtr) (isBid : Bool) : OrderBook :=
  { b with mPriceToLevel := Function.update b.mPriceToLevel (b.level l).price none }.setLevels isBid
    ((b.levels isBid).erase l)

def updateBestPrices (b : OrderBook) : OrderBook :=
  { b with
    mBestBid := match b.mBidLevels with
      | [] => 0
      | l :: _ => (b.level l).price
    mBestAsk := match b.mAskLevels with
      | [] => Int64.maxValue
      | l :: _ => (b.level l).price }

def updateDepth (b : OrderBook) : OrderBook :=
  { b with
    mBidDepth := b.mBidLevels.foldl (fun d l => d + (b.level l).totalQuantity) 0
    mAskDepth := b.mAskLevels.foldl (fun d l => d + (b.level l).totalQuantity) 0 }

def bumpSequence (b : OrderBook) : OrderBook := { b with mSequence := b.mSequence + 1 }

/-- The level at a price, allocated and inserted when there is none. -/
def findOrInsert (b : OrderBook) (price : Int64) (isBid : Bool) : LevelPtr × OrderBook :=
  match b.findLevel price isBid with
  | some l => (l, b)
  | none => ((b.newLevel price).1, (b.newLevel price).2.insertLevel (b.newLevel price).1 isBid)

def setIndex (b : OrderBook) (id : UInt64) (loc : OrderLocation) : OrderBook :=
  { b with mOrderIndex := Function.update b.mOrderIndex id (some loc) }

def eraseIndex (b : OrderBook) (id : UInt64) : OrderBook :=
  { b with mOrderIndex := Function.update b.mOrderIndex id none }

def addOrder (order : Option OrderPtr) (orders : OrderHeap) (b : OrderBook) : Bool × OrderBook :=
  match order with
  | none => (false, b)
  | some p =>
    let isBid := (orders p).isBuy
    let price := (orders p).price
    let (l, b) := b.findOrInsert price isBid
    let b := b.setLevel l ((b.level l).addOrder (some p) orders)
    let b := b.setIndex (orders p).orderId { price, isBid, orderPtr := p }
    let b := b.addDepth isBid (orders p).remainingQuantity
    (true, b.updateBestPrices.bumpSequence)

def cancelOrder (id : UInt64) (orders : OrderHeap) (b : OrderBook) :
    Bool × OrderBook × OrderHeap :=
  match b.mOrderIndex id with
  | none => (false, b, orders)
  | some loc =>
    match b.findLevel loc.price loc.isBid with
    | none => (false, b.eraseIndex id, orders)
    | some l =>
      let (lvl, orders) := (b.level l).removeOrder (some loc.orderPtr) orders
      let b := b.setLevel l lvl
      let b := b.subDepth loc.isBid (orders loc.orderPtr).remainingQuantity
      let orders := Function.update orders loc.orderPtr (orders loc.orderPtr).cancel
      let b := if lvl.empty then (b.removeLevel l loc.isBid).deleteLevel l else b
      (true, (b.eraseIndex id).updateBestPrices.bumpSequence, orders)

/-- The front level of the side is dropped from the map and the vector, and deleted. -/
def dropFront (b : OrderBook) (isBid : Bool) (l : LevelPtr) : OrderBook :=
  ({ b with mPriceToLevel := Function.update b.mPriceToLevel (b.level l).price none }.setLevels isBid
    (b.levels isBid).tail).deleteLevel l

def matchBody (incoming : OrderPtr) (isBid : Bool) (s : BookRun) : Option (BookRun ⊕ BookRun) :=
  match s.book.levels (!isBid) with
  | [] => some (.inl s)
  | l :: _ =>
    if (s.orders incoming).remainingQuantity = 0 then some (.inl s) else
    let level := s.book.level l
    if isBid && decide (level.price > (s.orders incoming).price) then some (.inl s) else
    if !isBid && decide (level.price < (s.orders incoming).price) then some (.inl s) else
    (PriceLevel.matchOrder (some incoming) ⟨level, s.orders, s.fills⟩).map fun r =>
      let t := r.2
      let diff := level.totalQuantity - t.level.totalQuantity
      let b := (s.book.setLevel l t.level).subDepth (!isBid) diff
      let b := if t.level.empty then b.dropFront (!isBid) l else b
      .inr ⟨b, t.orders, t.fills⟩

/-- Put what is left of the incoming order into the book. -/
def rest (incoming : OrderPtr) (isBid : Bool) (orders : OrderHeap) (b : OrderBook) : OrderBook :=
  let o := orders incoming
  if o.remainingQuantity > 0 then
    let (l, b) := b.findOrInsert o.price isBid
    let b := b.setLevel l ((b.level l).addOrder (some incoming) orders)
    let b := b.addDepth isBid o.remainingQuantity
    b.setIndex o.orderId { price := o.price, isBid, orderPtr := incoming }
  else b

/-- The loop may take at most one turn more than there are opposite levels; there is no result
when that is not enough. -/
def «match» (incoming : Option OrderPtr) (s : BookRun) : Option (Option OrderPtr × BookRun) :=
  match incoming with
  | none => some (none, s)
  | some p =>
    if (s.orders p).remainingQuantity = 0 then some (some p, s) else
    let isBid := (s.orders p).isBuy
    (Loop.run (matchBody p isBid) ((s.book.levels (!isBid)).length + 1) s).map fun t =>
      (if (t.orders p).remainingQuantity > 0 then some p else none,
        { t with book := (rest p isBid t.orders t.book).updateBestPrices.bumpSequence })

section Fields

variable (b : OrderBook) (s s' : Bool) (l l' : LevelPtr) (lvl : PriceLevel) (q : UInt32)
  (ls : List LevelPtr) (id : UInt64) (loc : OrderLocation)

@[simp] theorem levels_setLevel : (b.setLevel l lvl).levels s = b.levels s := rfl
@[simp] theorem levels_deleteLevel : (b.deleteLevel l).levels s = b.levels s := rfl
@[simp] theorem levels_setIndex : (b.setIndex id loc).levels s = b.levels s := rfl
@[simp] theorem levels_eraseIndex : (b.eraseIndex id).levels s = b.levels s := rfl
@[simp] theorem levels_updateBestPrices : b.updateBestPrices.levels s = b.levels s := rfl
@[simp] theorem levels_bumpSequence : b.bumpSequence.levels s = b.levels s := rfl
@[simp] theorem levels_addDepth : (b.addDepth s' q).levels s = b.levels s := by
  cases s' <;> rfl
@[simp] theorem levels_subDepth : (b.subDepth s' q).levels s = b.levels s := by
  cases s' <;> rfl
@[simp] theorem levels_setLevels : (b.setLevels s ls).levels s = ls := by
  cases s <;> rfl
@[simp] theorem levels_setLevels_other : (b.setLevels s ls).levels (!s) = b.levels (!s) := by
  cases s <;> rfl

@[simp] theorem store_setLevels : (b.setLevels s ls).store = b.store := by cases s <;> rfl
@[simp] theorem store_setIndex : (b.setIndex id loc).store = b.store := rfl
@[simp] theorem store_eraseIndex : (b.eraseIndex id).store = b.store := rfl
@[simp] theorem store_updateBestPrices : b.updateBestPrices.store = b.store := rfl
@[simp] theorem store_bumpSequence : b.bumpSequence.store = b.store := rfl
@[simp] theorem store_addDepth : (b.addDepth s q).store = b.store := by cases s <;> rfl
@[simp] theorem store_subDepth : (b.subDepth s q).store = b.store := by cases s <;> rfl

theorem level_congr {b b' : OrderBook} (h : b'.store = b.store) : b'.level l = b.level l := by
  rw [level, level, h]

@[simp] theorem level_setLevel : (b.setLevel l lvl).level l = lvl := by
  simp only [level, setLevel, Function.update_self, Option.getD_some]

theorem level_setLevel_of_ne (h : l' ≠ l) : (b.setLevel l lvl).level l' = b.level l' := by
  simp only [level, setLevel, Function.update_of_ne h]

theorem level_deleteLevel_of_ne (h : l' ≠ l) : (b.deleteLevel l).level l' = b.level l' := by
  simp only [level, deleteLevel, Function.update_of_ne h]

@[simp] theorem map_setLevels : (b.setLevels s ls).mPriceToLevel = b.mPriceToLevel := by
  cases s <;> rfl
@[simp] theorem map_addDepth : (b.addDepth s q).mPriceToLevel = b.mPriceToLevel := by
  cases s <;> rfl
@[simp] theorem map_subDepth : (b.subDepth s q).mPriceToLevel = b.mPriceToLevel := by
  cases s <;> rfl

@[simp] theorem nextLevel_setLevels : (b.setLevels s ls).nextLevel = b.nextLevel := by
  cases s <;> rfl
@[simp] theorem nextLevel_addDepth : (b.addDepth s q).nextLevel = b.nextLevel := by
  cases s <;> rfl
@[simp] theorem nextLevel_subDepth : (b.subDepth s q).nextLevel = b.nextLevel := by
  cases s <;> rfl

@[simp] theorem index_eraseIndex : (b.eraseIndex id).mOrderIndex =
    Function.update b.mOrderIndex id none := rfl
@[simp] theorem index_setLevels : (b.setLevels s ls).mOrderIndex = b.mOrderIndex := by
  cases s <;> rfl
@[simp] theorem index_addDepth : (b.addDepth s q).mOrderIndex = b.mOrderIndex := by
  cases s <;> rfl
@[simp] theorem index_subDepth : (b.subDepth s q).mOrderIndex = b.mOrderIndex := by
  cases s <;> rfl

@[simp] theorem depth_setLevels : (b.setLevels s ls).depth s' = b.depth s' := by cases s <;> rfl
@[simp] theorem depth_addDepth : (b.addDepth s q).depth s = b.depth s + q := by cases s <;> rfl
@[simp] theorem depth_addDepth_other : (b.addDepth s q).depth (!s) = b.depth (!s) := by
  cases s <;> rfl
@[simp] theorem depth_subDepth : (b.subDepth s q).depth s = b.depth s - q := by cases s <;> rfl
@[simp] theorem depth_subDepth_other : (b.subDepth s q).depth (!s) = b.depth (!s) := by
  cases s <;> rfl

end Fields

end OrderBook

end Velox
