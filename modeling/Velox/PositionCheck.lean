import Velox.RiskLimits
import Velox.PositionArithmetic

namespace Velox
set_option autoImplicit true

/-- The units that a call adds to one side of a bucket. -/
def RiskCall.units (side : Bool) (bucket : Fin 256) : RiskCall → ℕ
  | setPositionLimit _ _ => 0
  | updatePosition order fillQuantity =>
    if RiskManager.hashSymbol order.symbol.cstr = bucket ∧ order.isBuy = side then
      fillQuantity.toNat
    else 0

def unitsIn (side : Bool) (bucket : Fin 256) (calls : List RiskCall) : ℕ :=
  (calls.map (RiskCall.units side bucket)).sum

/-- The position after a fill stays within the limit on the side to which the fill moves it. -/
def KeepsWithin (buy : Bool) (long short limit q : ℕ) : Prop :=
  if buy then (long : ℤ) + q - short ≤ limit else (long : ℤ) - (short + q) ≥ -limit

/-- The 32-bit difference is the position, or errs on the right side of the limit; and a sell is one
to be accepted, as it always is. -/
def CheckAccurate (buy : Bool) (long short limit q : ℕ) : Prop :=
  if buy then
    (0 ≤ (long : ℤ) + q - short ∧ (long : ℤ) + q - short < 2 ^ 32) ∨
      ((long : ℤ) + q - short < 0 ∧ (long : ℤ) + q - short + 2 ^ 32 ≤ limit) ∨
      (2 ^ 32 ≤ (long : ℤ) + q - short ∧ (limit : ℤ) < (long : ℤ) + q - short - 2 ^ 32)
  else (long : ℤ) - (short + q) ≥ -limit

instance : Decidable (KeepsWithin buy long short limit q) := by
  unfold KeepsWithin
  infer_instance

instance : Decidable (CheckAccurate buy long short limit q) := by
  unfold CheckAccurate
  infer_instance

variable {calls : List RiskCall} {c : RiskCall} {side : Bool} {i : Fin 256} {a l s q : UInt32}

theorem unitsIn_snoc : unitsIn side i (calls ++ [c]) = unitsIn side i calls + c.units side i := by
  simp [unitsIn]

def RiskPosition.counter (side : Bool) (pos : RiskPosition) : UInt32 :=
  if side then pos.longPosition else pos.shortPosition

theorem RiskPosition.counter_apply (c : RiskCall) (side : Bool) (pos : RiskPosition)
    (hi : RiskManager.hashSymbol c.name = i) :
    (c.apply pos).counter side = pos.counter side + UInt32.ofNat (c.units side i) := by
  cases c with
  | setPositionLimit symbol limit => exact (UInt32.add_zero _).symm
  | updatePosition order q =>
    have hname : RiskManager.hashSymbol order.symbol.cstr = i := hi
    cases hb : order.isBuy <;> cases side <;>
      simp [RiskCall.apply, RiskCall.units, counter, hb, hname]

theorem units_of_ne (hi : RiskManager.hashSymbol c.name ≠ i) : c.units side i = 0 := by
  cases c with
  | setPositionLimit symbol limit => rfl
  | updatePosition order q => exact if_neg fun h => hi h.1

theorem RiskManager.counter_after (calls : List RiskCall) (side : Bool) (i : Fin 256) :
    ((after calls {}).mPositions i).counter side = UInt32.ofNat (unitsIn side i calls) := by
  induction calls using List.reverseRecOn with
  | nil => cases side <;> rfl
  | append_singleton calls c ih =>
    have hsnoc : after (calls ++ [c]) {} = (after calls {}).call c := by
      rw [after, List.foldl_append]
      rfl
    rw [hsnoc, call_eq, unitsIn_snoc, UInt32.ofNat_add, ← ih]
    by_cases hi : hashSymbol c.name = i
    · rw [← hi]
      simp only [Function.update_self]
      exact RiskPosition.counter_apply c side _ rfl
    · rw [units_of_ne hi]
      simp only [Function.update_of_ne (Ne.symm hi)]
      exact (UInt32.add_zero _).symm

theorem RiskManager.toNat_counter_after (h : unitsIn side i calls < 2 ^ 32) :
    (((after calls {}).mPositions i).counter side).toNat = unitsIn side i calls := by
  rw [counter_after, UInt32.toNat_ofNat', Nat.mod_eq_of_lt h]

namespace RiskManager

theorem buy_compare_iff :
    l + q - s ≤ a ↔ ((l.toNat : ℤ) + q.toNat - s.toNat) % 2 ^ 32 ≤ a.toNat := by
  have hl := l.toNat_lt
  have hs := s.toNat_lt
  have hq := q.toNat_lt
  rw [UInt32.le_iff_toNat_le, UInt32.toNat_sub, UInt32.toNat_add]
  omega

/-- The comparison of a sell is always met, as the unsigned difference is not negative. -/
theorem sell_compare : (l - s).toUInt64.toInt64 ≥ -a.toUInt64.toInt64 := by
  have ha := a.toNat_lt
  have hneg : (-a.toUInt64.toInt64).toInt = -(a.toNat : ℤ) := by
    rw [Int64.toInt_neg, toInt_toInt64, bmod_eq_of_fits ⟨by omega, by omega⟩]
  rw [ge_iff_le, Int64.le_iff_toInt_le, hneg, toInt_toInt64]
  omega

theorem checkPosition_iff {r : RiskManager} (o : Order) (q : UInt32) :
    (r.checkPosition (some o) q = true ↔
      KeepsWithin o.isBuy (r.mPositions (hashSymbol o.symbol.cstr)).longPosition.toNat
        (r.mPositions (hashSymbol o.symbol.cstr)).shortPosition.toNat
        (r.mPositions (hashSymbol o.symbol.cstr)).limit.toNat q.toNat) ↔
    CheckAccurate o.isBuy (r.mPositions (hashSymbol o.symbol.cstr)).longPosition.toNat
      (r.mPositions (hashSymbol o.symbol.cstr)).shortPosition.toNat
      (r.mPositions (hashSymbol o.symbol.cstr)).limit.toNat q.toNat := by
  set pos := r.mPositions (hashSymbol o.symbol.cstr) with hpos
  have hl := pos.longPosition.toNat_lt
  have hs := pos.shortPosition.toNat_lt
  have ha := pos.limit.toNat_lt
  have hq := q.toNat_lt
  simp only [checkPosition, KeepsWithin, CheckAccurate, ← hpos]
  cases o.isBuy
  · simp only [Bool.false_eq_true, if_false, decide_eq_true_eq, iff_true_left sell_compare]
  · simp only [if_true, decide_eq_true_eq, buy_compare_iff]
    omega

theorem checkOrder_iff {r : RiskManager} (hb : r.mCircuitBreaker = false) (o : Order) :
    r.checkOrder (some o) = true ↔
      0 < o.quantity ∧ 0 ≤ o.price ∧ r.checkPosition (some o) o.quantity = true := by
  simp only [checkOrder, isCircuitBreakerActive, hb, Bool.false_eq_true, if_false]
  split
  · rename_i hq
    exact iff_of_false Bool.false_ne_true fun h => absurd (hq ▸ h.1) (by decide)
  · rename_i hq
    have hpos : 0 < o.quantity := UInt32.lt_of_le_of_ne UInt32.zero_le (Ne.symm hq)
    split
    · rename_i hp
      exact iff_of_false Bool.false_ne_true fun h => absurd hp (Int64.not_lt.2 h.2.1)
    · rename_i hp
      exact ⟨fun h => ⟨hpos, Int64.not_lt.1 hp, h⟩, fun h => h.2.2⟩

end RiskManager

/-- The check is the arithmetic one exactly when the 32-bit difference of a buy is not misleading
and a sell is not to be refused. -/
theorem position_check_iff (calls : List RiskCall) (o : Order) (q : UInt32)
    (hlong : unitsIn true (RiskManager.hashSymbol o.symbol.cstr) calls < 2 ^ 32)
    (hshort : unitsIn false (RiskManager.hashSymbol o.symbol.cstr) calls < 2 ^ 32) :
    let r := RiskManager.after calls {}
    let bucket := RiskManager.hashSymbol o.symbol.cstr
    let long := unitsIn true bucket calls
    let short := unitsIn false bucket calls
    let limit := (r.mPositions bucket).limit.toNat
    ((r.checkPosition (some o) q = true ↔ KeepsWithin o.isBuy long short limit q.toNat) ↔
      CheckAccurate o.isBuy long short limit q.toNat) ∧
    ((r.checkOrder (some o) = true ↔
        0 < o.quantity ∧ 0 ≤ o.price ∧ KeepsWithin o.isBuy long short limit o.quantity.toNat) ↔
      o.quantity = 0 ∨ o.price < 0 ∨ CheckAccurate o.isBuy long short limit o.quantity.toNat) := by
  have hl := RiskManager.toNat_counter_after hlong
  have hs := RiskManager.toNat_counter_after hshort
  simp only [RiskPosition.counter, if_true, Bool.false_eq_true, if_false] at hl hs
  dsimp only
  rw [← hl, ← hs]
  refine ⟨RiskManager.checkPosition_iff o q, ?_⟩
  rw [RiskManager.checkOrder_iff (by rw [RiskManager.mCircuitBreaker_after]) o,
    ← RiskManager.checkPosition_iff o o.quantity]
  by_cases hq : o.quantity = 0
  · refine iff_of_true (iff_of_false ?_ ?_) (.inl hq)
    · exact fun h => absurd (hq ▸ h.1) (by decide)
    · exact fun h => absurd (hq ▸ h.1) (by decide)
  · have hpos : 0 < o.quantity := UInt32.lt_of_le_of_ne UInt32.zero_le (Ne.symm hq)
    by_cases hp : o.price < 0
    · refine iff_of_true (iff_of_false ?_ ?_) (.inr (.inl hp))
      · exact fun h => absurd hp (Int64.not_lt.2 h.2.1)
      · exact fun h => absurd hp (Int64.not_lt.2 h.2.1)
    · have hle : 0 ≤ o.price := Int64.not_lt.1 hp
      simp only [hpos, hle, true_and, hq, hp, false_or]

/-- A position of 300 against a limit of 500: a buy of 100 is judged by the sum. -/
theorem position_check_long :
    (RiskManager.after [.setPositionLimit [65, 65, 80, 76] 500,
        .updatePosition { symbol := Symbol.ofChars [65, 65, 80, 76] } 300] {}).checkPosition
      (some { symbol := Symbol.ofChars [65, 65, 80, 76] }) 100 = true ↔
    KeepsWithin true 300 0 500 100 := by
  have h := (position_check_iff
    [.setPositionLimit [65, 65, 80, 76] 500,
      .updatePosition { symbol := Symbol.ofChars [65, 65, 80, 76] } 300]
    { symbol := Symbol.ofChars [65, 65, 80, 76] } 100 (by decide +kernel) (by decide +kernel)).1
  exact h.2 (by decide +kernel)

/-- A buy that covers a part of a short position of 10 is refused, and a sell beyond the limit is
accepted. -/
theorem position_check_short_and_sell :
    let o : Order := { symbol := Symbol.ofChars [65, 65, 80, 76], side := .SELL }
    let r := RiskManager.after [.updatePosition o 10] {}
    r.checkPosition (some { o with side := .BUY }) 1 = false ∧
      KeepsWithin true 0 10 100000 1 ∧
    r.checkPosition (some o) 200000 = true ∧ ¬ KeepsWithin false 0 10 100000 200000 := by
  decide +kernel

end Velox
