import Mathlib

namespace Velox
set_option autoImplicit true

inductive OrderSide
  | BUY | SELL
  deriving DecidableEq, Repr

inductive OrderType
  | LIMIT | MARKET | IOC | FOK
  deriving DecidableEq, Repr

inductive OrderStatus
  | NEW | PARTIAL | FILLED | CANCELLED | REJECTED
  deriving DecidableEq, Repr

/-- A `char[8]` member. -/
abbrev Symbol := Vector UInt8 8

/-- The C string held in a `char[8]` member. -/
def Symbol.cstr (s : Symbol) : List UInt8 := s.toList.takeWhile (· ≠ 0)

/-- Characters in a `char[8]` member, filled up with zeros. -/
def Symbol.ofChars (chars : List UInt8) : Symbol := Vector.ofFn fun i => chars.getD i 0

theorem takeWhile_padded {xs : List UInt8} (h : ∀ b ∈ xs, b ≠ 0) (n : ℕ) :
    (xs ++ List.replicate n 0).takeWhile (· ≠ 0) = xs := by
  rw [List.takeWhile_append_of_pos fun b hb => decide_eq_true (h b hb)]
  cases n with
  | zero => exact List.append_nil xs
  | succ n => rw [List.replicate_succ, List.takeWhile_cons_of_neg (by decide), List.append_nil]

namespace Symbol

variable {chars : List UInt8}

theorem toList_ofChars (h : chars.length ≤ 8) :
    (ofChars chars).toList = chars ++ List.replicate (8 - chars.length) 0 := by
  refine List.ext_getElem ?_ fun i h₁ h₂ => ?_
  · rw [Vector.length_toList, List.length_append, List.length_replicate]
    omega
  · simp only [Vector.getElem_toList, ofChars, Vector.getElem_ofFn, List.getElem_append]
    split
    · rename_i hi
      rw [List.getD_eq_getElem _ _ hi]
    · rename_i hi
      rw [List.getD_eq_default _ _ (Nat.le_of_not_lt hi), List.getElem_replicate]

theorem cstr_ofChars (h : chars.length ≤ 8) (hchars : ∀ b ∈ chars, b ≠ 0) :
    (ofChars chars).cstr = chars := by
  rw [cstr, toList_ofChars h]
  exact takeWhile_padded hchars _

theorem ne_zero_of_mem_cstr {s : Symbol} {b : UInt8} (h : b ∈ s.cstr) : b ≠ 0 := by
  rw [cstr] at h
  have hb := List.mem_takeWhile_imp h
  exact of_decide_eq_true hb

theorem length_cstr (s : Symbol) : s.cstr.length ≤ 8 :=
  (List.takeWhile_sublist _).length_le.trans (by rw [Vector.length_toList])

end Symbol

/-- The unused links are left out. -/
structure Order where
  orderId : UInt64 := 0
  clientOrderId : UInt64 := 0
  symbol : Symbol := Vector.replicate 8 0
  side : OrderSide := .BUY
  type : OrderType := .LIMIT
  status : OrderStatus := .NEW
  price : Int64 := 0
  quantity : UInt32 := 0
  filledQuantity : UInt32 := 0
  remainingQuantity : UInt32 := 0
  receivedTimestamp : UInt64 := 0
  matchedTimestamp : UInt64 := 0
  deriving DecidableEq, Inhabited

namespace Order

def isBuy (o : Order) : Bool := o.side == .BUY

def isActive (o : Order) : Bool := o.status == .NEW || o.status == .PARTIAL

def fill (o : Order) (fillQty : UInt32) : Order :=
  let filled := o.filledQuantity + fillQty
  let remaining := o.quantity - filled
  { o with
    filledQuantity := filled
    remainingQuantity := remaining
    status := if remaining = 0 then .FILLED else .PARTIAL }

def cancel (o : Order) : Order := { o with status := .CANCELLED }

/-- The two quantity updates that matching makes to an order, without touching its status. -/
def trade (o : Order) (fill : UInt32) : Order :=
  { o with
    remainingQuantity := o.remainingQuantity - fill
    filledQuantity := o.filledQuantity + fill }

@[simp] theorem trade_orderId (o : Order) (q : UInt32) : (o.trade q).orderId = o.orderId := rfl
@[simp] theorem trade_side (o : Order) (q : UInt32) : (o.trade q).side = o.side := rfl
@[simp] theorem trade_status (o : Order) (q : UInt32) : (o.trade q).status = o.status := rfl
@[simp] theorem trade_price (o : Order) (q : UInt32) : (o.trade q).price = o.price := rfl
@[simp] theorem trade_quantity (o : Order) (q : UInt32) : (o.trade q).quantity = o.quantity := rfl
@[simp] theorem trade_symbol (o : Order) (q : UInt32) : (o.trade q).symbol = o.symbol := rfl
@[simp] theorem trade_isBuy (o : Order) (q : UInt32) : (o.trade q).isBuy = o.isBuy := rfl
@[simp] theorem trade_isActive (o : Order) (q : UInt32) : (o.trade q).isActive = o.isActive := rfl

end Order

/-- The address of an order's storage cell. -/
abbrev OrderPtr := ℕ

abbrev OrderHeap := OrderPtr → Order

structure Fill where
  order : OrderPtr
  quantity : UInt32
  price : Int64
  deriving DecidableEq, Repr

end Velox
