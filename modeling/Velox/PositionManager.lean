import Velox.Order

namespace Velox
set_option autoImplicit true

structure Position where
  netPosition : Int64 := 0
  realizedPnl : Int64 := 0
  avgEntryPrice : Int64 := 0
  totalBought : UInt32 := 0
  totalSold : UInt32 := 0
  deriving DecidableEq, Inhabited

structure PositionManager where
  mPositions : List UInt8 → Option Position := fun _ => none

/-- A call of `update_position`. -/
structure Booking where
  order : OrderPtr
  quantity : UInt32
  price : Int64
  deriving DecidableEq, Repr

/-- Trim trailing spaces. -/
def trimSpaces (symbol : List UInt8) : List UInt8 := symbol.rdropWhile (· == 32)

/-- The name under which the position manager files an order. -/
def Order.key (o : Order) : List UInt8 := trimSpaces o.symbol.cstr

namespace Position

/-- The product with the 64-bit unsigned total makes the weighted average an unsigned one. -/
def buy (fillQuantity : UInt32) (fillPrice : Int64) (pos : Position) : Position :=
  let oldBought := pos.totalBought.toUInt64
  let newBought := oldBought + fillQuantity.toUInt64
  let newAvg :=
    if oldBought = 0 then fillPrice
    else ((pos.avgEntryPrice.toUInt64 * oldBought +
      (fillPrice * fillQuantity.toUInt64.toInt64).toUInt64) / newBought).toInt64
  { pos with
    netPosition := pos.netPosition + fillQuantity.toUInt64.toInt64
    avgEntryPrice := newAvg
    totalBought := newBought.toUInt32 }

def sell (fillQuantity : UInt32) (fillPrice : Int64) (pos : Position) : Position :=
  let pnl := (fillPrice - pos.avgEntryPrice) * fillQuantity.toUInt64.toInt64
  { pos with
    realizedPnl := pos.realizedPnl + pnl
    netPosition := pos.netPosition - fillQuantity.toUInt64.toInt64
    totalSold := pos.totalSold + fillQuantity }

end Position

namespace PositionManager

/-- Signed arithmetic wraps here where it would overflow. -/
def updatePosition (order : Option Order) (fillQuantity : UInt32) (fillPrice : Int64)
    (pm : PositionManager) : PositionManager :=
  match order with
  | none => pm
  | some o =>
    if fillQuantity = 0 then pm else
    let pos := (pm.mPositions o.key).getD {}
    let pos := if o.isBuy then pos.buy fillQuantity fillPrice else pos.sell fillQuantity fillPrice
    { pm with mPositions := Function.update pm.mPositions o.key (some pos) }

/-- The map is searched for the symbol as it is given, spaces included. -/
def getPosition (symbol : List UInt8) (pm : PositionManager) : Int64 :=
  match pm.mPositions symbol with
  | none => 0
  | some pos => pos.netPosition

def getRealizedPnl (symbol : List UInt8) (pm : PositionManager) : Int64 :=
  match pm.mPositions symbol with
  | none => 0
  | some pos => pos.realizedPnl

def getUnrealizedPnl (symbol : List UInt8) (currentPrice : Int64) (pm : PositionManager) : Int64 :=
  match pm.mPositions symbol with
  | none => 0
  | some pos =>
    if pos.netPosition = 0 then 0
    else if pos.netPosition > 0 then (currentPrice - pos.avgEntryPrice) * pos.netPosition
    else (pos.avgEntryPrice - currentPrice) * -pos.netPosition

def getTotalPnl (symbol : List UInt8) (currentPrice : Int64) (pm : PositionManager) : Int64 :=
  pm.getRealizedPnl symbol + pm.getUnrealizedPnl symbol currentPrice

def book (orders : OrderHeap) (bs : List Booking) (pm : PositionManager) : PositionManager :=
  bs.foldl (fun pm b => pm.updatePosition (some (orders b.order)) b.quantity b.price) pm

/-- The record of a name, blank before its first fill. -/
def position (pm : PositionManager) (key : List UInt8) : Position := (pm.mPositions key).getD {}

end PositionManager

def bookedOn (orders : OrderHeap) (key : List UInt8) (side : Bool) (bs : List Booking) : ℕ :=
  ((bs.filter fun b => (orders b.order).key = key ∧ (orders b.order).isBuy = side).map
    fun b => b.quantity.toNat).sum

section Ledger

variable {orders : OrderHeap} {key : List UInt8} {side : Bool} {b : Booking} {bs cs : List Booking}
  {pm : PositionManager} {q : UInt32}

@[simp] theorem bookedOn_nil : bookedOn orders key side [] = 0 := rfl

theorem bookedOn_cons : bookedOn orders key side (b :: bs) =
    (if (orders b.order).key = key ∧ (orders b.order).isBuy = side then b.quantity.toNat else 0) +
      bookedOn orders key side bs := by
  rw [bookedOn, List.filter_cons]
  simp only [decide_eq_true_eq]
  split
  · rw [List.map_cons, List.sum_cons]
    rfl
  · rw [Nat.zero_add]
    rfl

theorem toInt64_toUInt64 (q : UInt32) : q.toUInt64.toInt64 = Int64.ofNat q.toNat := by
  rw [← UInt64.toInt64_ofNat', ← UInt32.toNat_toUInt64, UInt64.ofNat_toNat]

namespace PositionManager

theorem position_update (o : Order) (x : Int64) :
    (pm.updatePosition (some o) q x).position key =
      if o.key = key ∧ q ≠ 0 then
        if o.isBuy then (pm.position key).buy q x else (pm.position key).sell q x
      else pm.position key := by
  simp only [updatePosition, position]
  by_cases hq : q = 0
  · rw [if_pos hq, if_neg fun h => h.2 hq]
  · by_cases hk : o.key = key
    · subst hk
      simp only [hq, if_false, Function.update_self, Option.getD_some, ne_eq, not_false_eq_true,
        and_self, if_true]
    · simp only [hq, if_false, Function.update_of_ne (Ne.symm hk), hk, false_and]

theorem update_totals (o : Order) (x : Int64) (key : List UInt8) :
    ((pm.updatePosition (some o) q x).position key).netPosition =
      (pm.position key).netPosition +
        Int64.ofNat (if o.key = key ∧ o.isBuy = true then q.toNat else 0) -
        Int64.ofNat (if o.key = key ∧ o.isBuy = false then q.toNat else 0) ∧
    ((pm.updatePosition (some o) q x).position key).totalBought =
      (pm.position key).totalBought +
        UInt32.ofNat (if o.key = key ∧ o.isBuy = true then q.toNat else 0) ∧
    ((pm.updatePosition (some o) q x).position key).totalSold =
      (pm.position key).totalSold +
        UInt32.ofNat (if o.key = key ∧ o.isBuy = false then q.toNat else 0) := by
  rw [position_update]
  by_cases hk : o.key = key
  · by_cases hq : q = 0
    · subst hq
      cases o.isBuy <;> simp [hk]
    · cases hb : o.isBuy
      · simp [hk, hq, Position.sell, toInt64_toUInt64]
      · simp [hk, hq, Position.buy, toInt64_toUInt64]
  · simp [hk]

/-- The books after a list of calls are the sums of what was booked, modulo the width of the
counters. -/
theorem book_totals (orders : OrderHeap) (bs : List Booking) (pm : PositionManager)
    (key : List UInt8) :
    ((pm.book orders bs).position key).netPosition = (pm.position key).netPosition +
      Int64.ofNat (bookedOn orders key true bs) - Int64.ofNat (bookedOn orders key false bs) ∧
    ((pm.book orders bs).position key).totalBought =
      (pm.position key).totalBought + UInt32.ofNat (bookedOn orders key true bs) ∧
    ((pm.book orders bs).position key).totalSold =
      (pm.position key).totalSold + UInt32.ofNat (bookedOn orders key false bs) := by
  induction bs generalizing pm with
  | nil => simp [book]
  | cons b bs ih =>
    obtain ⟨hnet, hbought, hsold⟩ := update_totals
      (orders b.order) b.price key
    obtain ⟨inet, ibought, isold⟩ :=
      ih (pm.updatePosition (some (orders b.order)) b.quantity b.price)
    have hring : ∀ a c d e f : Int64, a + c - d + e - f = a + (c + e) - (d + f) := by grind
    refine ⟨inet.trans ?_, ibought.trans ?_, isold.trans ?_⟩
    · rw [hnet, bookedOn_cons, bookedOn_cons, Int64.ofNat_add, Int64.ofNat_add, hring]
    · rw [hbought, bookedOn_cons, UInt32.ofNat_add, UInt32.add_assoc]
    · rw [hsold, bookedOn_cons, UInt32.ofNat_add, UInt32.add_assoc]

end PositionManager

end Ledger

end Velox
