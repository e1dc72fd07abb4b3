import Velox.PositionManager

namespace Velox
set_option autoImplicit true

structure PositionUpdate where
  order : Order
  fillQuantity : UInt32
  fillPrice : Int64
  deriving DecidableEq

def PositionManager.record (calls : List PositionUpdate) (pm : PositionManager) : PositionManager :=
  calls.foldl (fun pm c => pm.updatePosition (some c.order) c.fillQuantity c.fillPrice) pm

/-- What the result of a signed 64-bit operation must satisfy for it not to overflow. -/
def FitsInt64 (v : ℤ) : Prop := -2 ^ 63 ≤ v ∧ v < 2 ^ 63

/-- The same for an unsigned operation. -/
def FitsUInt64 (v : ℤ) : Prop := 0 ≤ v ∧ v < 2 ^ 64

instance : DecidablePred FitsInt64 := fun _ => inferInstanceAs (Decidable (_ ∧ _))

instance : DecidablePred FitsUInt64 := fun _ => inferInstanceAs (Decidable (_ ∧ _))

namespace Position

/-- The operations by which a buy computes the average price, none for the first. -/
def AverageFits (q : UInt32) (x : Int64) (pos : Position) : Prop :=
  pos.totalBought = 0 ∨
    FitsUInt64 (pos.avgEntryPrice.toInt * pos.totalBought.toNat) ∧
      FitsInt64 (x.toInt * q.toNat) ∧
        FitsUInt64 (pos.avgEntryPrice.toInt * pos.totalBought.toNat + x.toInt * q.toNat)

def BuyFits (q : UInt32) (x : Int64) (pos : Position) : Prop :=
  FitsInt64 (pos.netPosition.toInt + q.toNat) ∧ pos.totalBought.toNat + q.toNat < 2 ^ 32 ∧
    pos.AverageFits q x

def SellFits (q : UInt32) (x : Int64) (pos : Position) : Prop :=
  FitsInt64 (pos.netPosition.toInt - q.toNat) ∧ pos.totalSold.toNat + q.toNat < 2 ^ 32 ∧
    FitsInt64 (x.toInt - pos.avgEntryPrice.toInt) ∧
      FitsInt64 ((x.toInt - pos.avgEntryPrice.toInt) * q.toNat) ∧
        FitsInt64 (pos.realizedPnl.toInt + (x.toInt - pos.avgEntryPrice.toInt) * q.toNat)

instance : Decidable (AverageFits q x pos) := inferInstanceAs (Decidable (_ ∨ _))

instance : Decidable (BuyFits q x pos) := inferInstanceAs (Decidable (_ ∧ _))

instance : Decidable (SellFits q x pos) := inferInstanceAs (Decidable (_ ∧ _))

def update (c : PositionUpdate) (pos : Position) : Position :=
  if c.order.isBuy then pos.buy c.fillQuantity c.fillPrice
  else pos.sell c.fillQuantity c.fillPrice

def UpdateFits (c : PositionUpdate) (pos : Position) : Prop :=
  if c.order.isBuy then pos.BuyFits c.fillQuantity c.fillPrice
  else pos.SellFits c.fillQuantity c.fillPrice

instance : Decidable (UpdateFits c pos) := by
  unfold UpdateFits
  infer_instance

/-- The average entry price before it is rounded, over the units it is taken of. -/
def weightedSum (q : UInt32) (x : Int64) (pos : Position) : ℤ :=
  pos.avgEntryPrice.toInt * pos.totalBought.toNat + x.toInt * q.toNat

end Position

section Exact
variable {q : UInt32} {x a b : Int64} {pos : Position} {v : ℤ}

theorem bmod_eq_of_fits (h : FitsInt64 v) : v.bmod (2 ^ 64) = v :=
  Int.bmod_eq_of_le h.1 h.2

theorem toInt_toInt64 (q : UInt32) : q.toUInt64.toInt64.toInt = q.toNat := by
  have hq := q.toNat_lt
  rw [toInt64_toUInt64, Int64.toInt_ofNat_of_lt (by omega)]

theorem toInt_add_of_fits (h : FitsInt64 (a.toInt + b.toInt)) : (a + b).toInt = a.toInt + b.toInt :=
  (Int64.toInt_add a b).trans (bmod_eq_of_fits h)

theorem toInt_sub_of_fits (h : FitsInt64 (a.toInt - b.toInt)) : (a - b).toInt = a.toInt - b.toInt :=
  (Int64.toInt_sub a b).trans (bmod_eq_of_fits h)

theorem toInt_mul_of_fits (h : FitsInt64 (a.toInt * b.toInt)) : (a * b).toInt = a.toInt * b.toInt :=
  (Int64.toInt_mul a b).trans (bmod_eq_of_fits h)

theorem toNat_toUInt64_of_nonneg (h : 0 ≤ a.toInt) : (a.toUInt64.toNat : ℤ) = a.toInt := by
  have hle : 0 ≤ a := Int64.le_iff_toInt_le.2 (by rwa [Int64.toInt_zero])
  rw [Int64.toNat_toUInt64_of_le hle, ← Int64.toNat_toInt, Int.toNat_of_nonneg h]

theorem toInt_toInt64_of_lt {u : UInt64} (h : u.toNat < 2 ^ 63) : u.toInt64.toInt = u.toNat := by
  have hu : u.toInt64 = Int64.ofNat u.toNat := by rw [← UInt64.toInt64_ofNat', UInt64.ofNat_toNat]
  rw [hu, Int64.toInt_ofNat_of_lt h]

namespace Position

theorem sell_exact (h : pos.SellFits q x) :
    (pos.sell q x).netPosition.toInt = pos.netPosition.toInt - q.toNat ∧
    (pos.sell q x).realizedPnl.toInt =
      pos.realizedPnl.toInt + (x.toInt - pos.avgEntryPrice.toInt) * q.toNat ∧
    (pos.sell q x).totalSold.toNat = pos.totalSold.toNat + q.toNat := by
  obtain ⟨hnet, hsold, hdiff, hprod, hsum⟩ := h
  have hq := toInt_toInt64 q
  have hd := toInt_sub_of_fits hdiff
  have hp : ((x - pos.avgEntryPrice) * q.toUInt64.toInt64).toInt =
      (x.toInt - pos.avgEntryPrice.toInt) * q.toNat := by
    rw [toInt_mul_of_fits (by rwa [hd, hq]), hd, hq]
  refine ⟨?_, ?_, ?_⟩
  · rw [sell, toInt_sub_of_fits (by rwa [hq]), hq]
  · rw [sell, toInt_add_of_fits (by rwa [hp]), hp]
  · rw [sell, UInt32.toNat_add, Nat.mod_eq_of_lt hsold]

theorem newBought_toNat (h : pos.totalBought.toNat + q.toNat < 2 ^ 32) :
    (pos.totalBought.toUInt64 + q.toUInt64).toNat = pos.totalBought.toNat + q.toNat := by
  rw [UInt64.toNat_add, UInt32.toNat_toUInt64, UInt32.toNat_toUInt64]
  omega

theorem average_lt {s c a b : ℤ} {m n : ℕ} (ha : a < c) (hb : b < c) (hs : s = a * m + b * n)
    (hn : 0 < n) : s / (m + n : ℕ) < c := by
  have hpos : (0 : ℤ) < (m + n : ℕ) := by omega
  apply Int.ediv_lt_of_lt_mul hpos
  have hm : a * m ≤ c * m := mul_le_mul_of_nonneg_right ha.le (by omega)
  have hn : b * n < c * n := mul_lt_mul_of_pos_right hb (by omega)
  push_cast
  rw [hs, mul_add]
  omega

/-- The quotient that a buy stores, when no operation on the way overflows. -/
theorem quotient_exact (hb : pos.totalBought.toNat + q.toNat < 2 ^ 32)
    (havg : FitsUInt64 (pos.avgEntryPrice.toInt * pos.totalBought.toNat))
    (hprod : FitsInt64 (x.toInt * q.toNat)) (hsum : FitsUInt64 (pos.weightedSum q x))
    (hx : 0 ≤ x.toInt) (ha : 0 ≤ pos.avgEntryPrice.toInt) :
    ((pos.avgEntryPrice.toUInt64 * pos.totalBought.toUInt64 +
      (x * q.toUInt64.toInt64).toUInt64) / (pos.totalBought.toUInt64 + q.toUInt64)).toNat =
      pos.weightedSum q x / (pos.totalBought.toNat + q.toNat : ℕ) := by
  have hq := toInt_toInt64 q
  have hp : (x * q.toUInt64.toInt64).toInt = x.toInt * q.toNat := by
    rw [toInt_mul_of_fits (by rwa [hq]), hq]
  have hold : ((pos.avgEntryPrice.toUInt64 * pos.totalBought.toUInt64).toNat : ℤ) =
      pos.avgEntryPrice.toInt * pos.totalBought.toNat := by
    rw [UInt64.toNat_mul, UInt32.toNat_toUInt64, Int.natCast_mod, Nat.cast_mul,
      toNat_toUInt64_of_nonneg ha]
    exact Int.emod_eq_of_lt havg.1 havg.2
  have hnew : ((x * q.toUInt64.toInt64).toUInt64.toNat : ℤ) = x.toInt * q.toNat := by
    rw [toNat_toUInt64_of_nonneg (by rw [hp]; exact mul_nonneg hx (Nat.cast_nonneg _)), hp]
  rw [UInt64.toNat_div, newBought_toNat hb, UInt64.toNat_add, Int.natCast_ediv, Int.natCast_mod,
    Nat.cast_add, hold, hnew]
  exact congrArg (· / _) (Int.emod_eq_of_lt hsum.1 hsum.2)

/-- A buy does what it would do on integers; the average of a first buy is its price. -/
theorem buy_exact (h : pos.BuyFits q x) (hx : 0 ≤ x.toInt) (ha : 0 ≤ pos.avgEntryPrice.toInt)
    (hq : 0 < q.toNat) :
    (pos.buy q x).netPosition.toInt = pos.netPosition.toInt + q.toNat ∧
    (pos.buy q x).totalBought.toNat = pos.totalBought.toNat + q.toNat ∧
    (pos.buy q x).avgEntryPrice.toInt =
      pos.weightedSum q x / (pos.totalBought.toNat + q.toNat : ℕ) := by
  obtain ⟨hnet, hb, havg⟩ := h
  have hc := toInt_toInt64 q
  refine ⟨?_, ?_, ?_⟩
  · rw [buy, toInt_add_of_fits (by rwa [hc]), hc]
  · rw [buy, UInt64.toNat_toUInt32, newBought_toNat hb, Nat.mod_eq_of_lt hb]
  · by_cases hzero : pos.totalBought = 0
    · have hqz : ((q.toNat : ℕ) : ℤ) ≠ 0 := by omega
      have hold : pos.totalBought.toUInt64 = 0 := by
        rw [hzero]
        rfl
      simp only [buy, weightedSum, if_pos hold]
      rw [hzero, UInt32.toNat_zero, Nat.cast_zero, mul_zero, zero_add, zero_add]
      exact (Int.mul_ediv_cancel _ hqz).symm
    · obtain ⟨hold, hprod, hsum⟩ := havg.resolve_left hzero
      have hne : pos.totalBought.toUInt64 ≠ 0 := fun he => hzero (by
        rw [← UInt32.toNat_inj, ← UInt32.toNat_toUInt64, he]
        rfl)
      have hquot := quotient_exact hb hold hprod hsum hx ha
      have hlt := average_lt (Int64.toInt_lt pos.avgEntryPrice) (Int64.toInt_lt x)
        (weightedSum.eq_1 q x pos) hq
      simp only [buy, if_neg hne]
      rw [toInt_toInt64_of_lt (by omega), hquot]

end Position
end Exact
end Velox
