import Velox.PositionArithmetic
import Velox.Lib.AverageCost
import Velox.Lib.History

namespace Velox
set_option autoImplicit true

open AverageCost History

def unitsOn (side : Bool) (calls : List PositionUpdate) : ℕ :=
  ((calls.filter fun c => c.order.isBuy = side).map fun c => c.fillQuantity.toNat).sum

def valueOn (side : Bool) (calls : List PositionUpdate) : ℤ :=
  ((calls.filter fun c => c.order.isBuy = side).map
    fun c => (c.fillQuantity.toNat : ℤ) * c.fillPrice.toInt).sum

def recordOf (symbol : List UInt8) (calls : List PositionUpdate) : Position :=
  (PositionManager.record calls {}).position (trimSpaces symbol)

/-- Calls of `update_position` for one symbol in which nothing overflows. -/
structure Admissible (symbol : List UInt8) (calls : List PositionUpdate) : Prop where
  named : ∀ c ∈ calls, c.order.symbol.cstr = symbol
  filled : ∀ c ∈ calls, c.fillQuantity ≠ 0
  priced : ∀ c ∈ calls, 0 ≤ c.fillPrice
  fits : Each (fun pre c => (recordOf symbol pre).UpdateFits c) calls

/-- No buy rounds the average price. -/
def DividesEvenly (symbol : List UInt8) (calls : List PositionUpdate) : Prop :=
  Each (fun pre c => c.order.isBuy = true → (recordOf symbol pre).totalBought ≠ 0 →
    (((recordOf symbol pre).totalBought.toNat + c.fillQuantity.toNat : ℕ) : ℤ) ∣
      (recordOf symbol pre).weightedSum c.fillQuantity c.fillPrice) calls

/-- No operation of `get_total_pnl` overflows. -/
def Position.PnlFits (currentPrice : Int64) (pos : Position) : Prop :=
  (pos.netPosition = 0 ∨
    pos.netPosition > 0 ∧ FitsInt64 (currentPrice.toInt - pos.avgEntryPrice.toInt) ∧
      FitsInt64 ((currentPrice.toInt - pos.avgEntryPrice.toInt) * pos.netPosition.toInt) ∨
    pos.netPosition < 0 ∧ FitsInt64 (pos.avgEntryPrice.toInt - currentPrice.toInt) ∧
      FitsInt64 (-pos.netPosition.toInt) ∧
      FitsInt64 ((pos.avgEntryPrice.toInt - currentPrice.toInt) * -pos.netPosition.toInt)) ∧
  FitsInt64 (pos.realizedPnl.toInt +
    (currentPrice.toInt - pos.avgEntryPrice.toInt) * pos.netPosition.toInt)

instance : Decidable (Position.PnlFits x pos) := inferInstanceAs (Decidable (_ ∧ _))

/-- The total profit is the cash taken in and the value of what is held, at any price. -/
def MarkedToMarket (symbol : List UInt8) (calls : List PositionUpdate) : Prop :=
  ∀ currentPrice : Int64,
    ((PositionManager.record calls {}).position symbol).PnlFits currentPrice →
    ((PositionManager.record calls {}).getTotalPnl symbol currentPrice).toInt =
      valueOn false calls - valueOn true calls +
        (unitsOn true calls - unitsOn false calls) * currentPrice.toInt

/-- The average price of the buys, 0 before the first of them. -/
def averagePaid (calls : List PositionUpdate) : ℤ := valueOn true calls / unitsOn true calls

/-- A buy that comes after a sell is at the average price of the buys before it. -/
def BuysAtAverage (calls : List PositionUpdate) (c : PositionUpdate) : Prop :=
  c.order.isBuy = true → unitsOn false calls = 0 ∨ c.fillPrice.toInt = averagePaid calls

section Sums
variable {side : Bool} {symbol : List UInt8} {calls : List PositionUpdate} {c : PositionUpdate}
  {pm : PositionManager} {pos : Position} {x : Int64}

@[simp] theorem unitsOn_nil : unitsOn side [] = 0 := rfl

@[simp] theorem valueOn_nil : valueOn side [] = 0 := rfl

theorem unitsOn_snoc : unitsOn side (calls ++ [c]) =
    unitsOn side calls + if c.order.isBuy = side then c.fillQuantity.toNat else 0 := by
  by_cases h : c.order.isBuy = side <;> simp [unitsOn, h]

theorem valueOn_snoc : valueOn side (calls ++ [c]) =
    valueOn side calls +
      if c.order.isBuy = side then (c.fillQuantity.toNat : ℤ) * c.fillPrice.toInt else 0 := by
  by_cases h : c.order.isBuy = side <;> simp [valueOn, h]

theorem unitsOn_same (calls : List PositionUpdate) (h : c.order.isBuy = side) :
    unitsOn side (calls ++ [c]) = unitsOn side calls + c.fillQuantity.toNat := by
  rw [unitsOn_snoc, if_pos h]

theorem unitsOn_other (calls : List PositionUpdate) (h : c.order.isBuy ≠ side) :
    unitsOn side (calls ++ [c]) = unitsOn side calls := by
  rw [unitsOn_snoc, if_neg h, add_zero]

theorem valueOn_same (h : c.order.isBuy = side) : valueOn side (calls ++ [c]) =
    valueOn side calls + (c.fillQuantity.toNat : ℤ) * c.fillPrice.toInt := by
  rw [valueOn_snoc, if_pos h]

theorem valueOn_other (h : c.order.isBuy ≠ side) :
    valueOn side (calls ++ [c]) = valueOn side calls := by
  rw [valueOn_snoc, if_neg h, add_zero]

theorem PositionManager.record_snoc (calls : List PositionUpdate) (c : PositionUpdate)
    (pm : PositionManager) : pm.record (calls ++ [c]) =
      (pm.record calls).updatePosition (some c.order) c.fillQuantity c.fillPrice := by
  rw [record, List.foldl_append]
  rfl

namespace Admissible

theorem nil : Admissible symbol [] :=
  ⟨List.forall_mem_nil _, List.forall_mem_nil _, List.forall_mem_nil _, each_nil⟩

theorem of_prefix (h : Admissible symbol calls) (hpre : pre <+: calls) : Admissible symbol pre :=
  ⟨fun d hd => h.named d (hpre.subset hd), fun d hd => h.filled d (hpre.subset hd),
    fun d hd => h.priced d (hpre.subset hd), h.fits.of_prefix hpre⟩

theorem init (h : Admissible symbol (calls ++ [c])) : Admissible symbol calls :=
  h.of_prefix (List.prefix_append _ _)

theorem snoc (h : Admissible symbol calls) (hn : c.order.symbol.cstr = symbol)
    (hf : c.fillQuantity ≠ 0) (hp : 0 ≤ c.fillPrice) (hc : (recordOf symbol calls).UpdateFits c) :
    Admissible symbol (calls ++ [c]) := by
  refine ⟨?_, ?_, ?_, each_snoc.2 ⟨h.fits, hc⟩⟩
  · exact List.forall_mem_append.2 ⟨h.named, List.forall_mem_singleton.2 hn⟩
  · exact List.forall_mem_append.2 ⟨h.filled, List.forall_mem_singleton.2 hf⟩
  · exact List.forall_mem_append.2 ⟨h.priced, List.forall_mem_singleton.2 hp⟩

theorem last_fits (h : Admissible symbol (calls ++ [c])) : (recordOf symbol calls).UpdateFits c :=
  (each_snoc.1 h.fits).2

theorem last_quantity (h : Admissible symbol (calls ++ [c])) : 0 < c.fillQuantity.toNat := by
  have hne := h.filled c (by simp)
  rw [Ne, ← UInt32.toNat_inj] at hne
  exact Nat.pos_of_ne_zero hne

theorem last_price (h : Admissible symbol (calls ++ [c])) : 0 ≤ c.fillPrice.toInt := by
  have hle := Int64.le_iff_toInt_le.1 (h.priced c (by simp))
  rwa [Int64.toInt_zero] at hle

theorem recordOf_snoc (h : Admissible symbol (calls ++ [c])) :
    recordOf symbol (calls ++ [c]) = (recordOf symbol calls).update c := by
  have hkey : c.order.key = trimSpaces symbol := congrArg trimSpaces (h.named c (by simp))
  rw [recordOf, PositionManager.record_snoc, PositionManager.position_update,
    if_pos ⟨hkey, h.filled c (by simp)⟩]
  rfl

end Admissible

end Sums

section Account
variable {symbol : List UInt8} {calls : List PositionUpdate} {c : PositionUpdate} {pos : Position}
  {q : UInt32} {x : Int64}

/-- A record as an account kept at average cost. -/
def Position.account (pos : Position) : Account ℤ :=
  ⟨pos.netPosition.toInt, pos.realizedPnl.toInt, pos.avgEntryPrice.toInt, pos.totalBought.toNat⟩

theorem Position.account_sell (h : pos.SellFits q x) :
    (pos.sell q x).account = pos.account.sell (q.toNat : ℤ) x.toInt := by
  obtain ⟨hnet, hpnl, -⟩ := sell_exact h
  rw [account, hnet, hpnl]
  rfl

theorem Position.account_buy (h : pos.BuyFits q x) (hx : 0 ≤ x.toInt)
    (ha : 0 ≤ pos.avgEntryPrice.toInt) (hq : 0 < q.toNat) :
    (pos.buy q x).account = pos.account.buy (q.toNat : ℤ)
      (pos.weightedSum q x / (pos.totalBought.toNat + q.toNat : ℕ)) := by
  obtain ⟨hnet, hbought, havg⟩ := buy_exact h hx ha hq
  rw [account, hnet, hbought, havg]
  simp only [Account.buy, account, Nat.cast_add, buy]

/-- What an exact record says of the calls that led to it. -/
structure Position.Tracks (calls : List PositionUpdate) (pos : Position) : Prop where
  bought : pos.totalBought.toNat = unitsOn true calls
  sold : pos.totalSold.toNat = unitsOn false calls
  net : pos.netPosition.toInt = unitsOn true calls - unitsOn false calls
  avg : 0 ≤ pos.avgEntryPrice.toInt
  blank : unitsOn true calls = 0 → pos.avgEntryPrice = 0

namespace Position.Tracks

theorem sell (ht : pos.Tracks calls) (hb : c.order.isBuy = false)
    (h : pos.SellFits c.fillQuantity c.fillPrice) :
    (pos.sell c.fillQuantity c.fillPrice).Tracks (calls ++ [c]) := by
  obtain ⟨hnet, -, hsold⟩ := sell_exact h
  have hne : c.order.isBuy ≠ true := by rw [hb]; decide
  have hbuys := unitsOn_other calls hne
  have hsells := unitsOn_same calls hb
  refine ⟨?_, ?_, ?_, ht.avg, fun hu => ht.blank (hbuys.symm.trans hu)⟩
  · rw [hbuys, ← ht.bought]
    rfl
  · rw [hsells, ← ht.sold, hsold]
  · rw [hbuys, hsells, hnet, ht.net]
    push_cast
    ring

theorem buy (ht : pos.Tracks calls) (hb : c.order.isBuy = true)
    (h : pos.BuyFits c.fillQuantity c.fillPrice) (hx : 0 ≤ c.fillPrice.toInt)
    (hq : 0 < c.fillQuantity.toNat) :
    (pos.buy c.fillQuantity c.fillPrice).Tracks (calls ++ [c]) := by
  obtain ⟨hnet, hbought, havg⟩ := buy_exact h hx ht.avg hq
  have hne : c.order.isBuy ≠ false := by rw [hb]; decide
  have hbuys := unitsOn_same calls hb
  have hsells := unitsOn_other calls hne
  refine ⟨?_, ?_, ?_, ?_, fun hu => ?_⟩
  · rw [hbuys, ← ht.bought, hbought]
  · rw [hsells, ← ht.sold]
    rfl
  · rw [hbuys, hsells, hnet, ht.net]
    push_cast
    ring
  · rw [havg]
    refine Int.ediv_nonneg (add_nonneg ?_ ?_) (Int.natCast_nonneg _)
    · exact mul_nonneg ht.avg (Int.natCast_nonneg _)
    · exact mul_nonneg hx (Int.natCast_nonneg _)
  · omega

end Position.Tracks

theorem Admissible.tracks (h : Admissible symbol calls) : (recordOf symbol calls).Tracks calls := by
  induction calls using List.reverseRecOn with
  | nil => exact ⟨rfl, rfl, rfl, le_rfl, fun _ => rfl⟩
  | append_singleton calls c ih =>
    have hfits := h.last_fits
    rw [h.recordOf_snoc, Position.update]
    rw [Position.UpdateFits] at hfits
    split at hfits
    · rename_i hb
      rw [if_pos hb]
      exact (ih h.init).buy hb hfits h.last_price h.last_quantity
    · rename_i hb
      rw [if_neg hb]
      exact (ih h.init).sell (Bool.eq_false_of_not_eq_true hb) hfits

namespace Admissible

theorem account_sold (h : Admissible symbol calls) :
    (recordOf symbol calls).account.sold = unitsOn false calls := by
  have ht := h.tracks
  rw [Account.sold, Position.account, ht.net, ht.bought]
  ring

theorem fits_buy (h : Admissible symbol (calls ++ [c])) (hb : c.order.isBuy = true) :
    (recordOf symbol calls).BuyFits c.fillQuantity c.fillPrice := by
  have hfits := h.last_fits
  rwa [Position.UpdateFits, if_pos hb] at hfits

theorem fits_sell (h : Admissible symbol (calls ++ [c])) (hb : c.order.isBuy = false) :
    (recordOf symbol calls).SellFits c.fillQuantity c.fillPrice := by
  have hfits := h.last_fits
  rwa [Position.UpdateFits, if_neg (by rw [hb]; decide)] at hfits

theorem account_buy (h : Admissible symbol (calls ++ [c])) (hb : c.order.isBuy = true) :
    (recordOf symbol (calls ++ [c])).account =
      (recordOf symbol calls).account.buy (c.fillQuantity.toNat : ℤ)
        ((recordOf symbol calls).weightedSum c.fillQuantity c.fillPrice /
          (unitsOn true calls + c.fillQuantity.toNat : ℕ)) := by
  rw [h.recordOf_snoc, Position.update, if_pos hb,
    Position.account_buy (h.fits_buy hb) h.last_price h.init.tracks.avg h.last_quantity,
    h.init.tracks.bought]

theorem account_sell (h : Admissible symbol (calls ++ [c])) (hb : c.order.isBuy = false) :
    (recordOf symbol (calls ++ [c])).account =
      (recordOf symbol calls).account.sell (c.fillQuantity.toNat : ℤ) c.fillPrice.toInt := by
  rw [h.recordOf_snoc, Position.update, if_neg (by rw [hb]; decide),
    Position.account_sell (h.fits_sell hb)]

theorem average_mul (h : Admissible symbol (calls ++ [c]))
    (hdiv : DividesEvenly symbol (calls ++ [c])) (hb : c.order.isBuy = true) :
    (recordOf symbol calls).weightedSum c.fillQuantity c.fillPrice /
          (unitsOn true calls + c.fillQuantity.toNat : ℕ) *
        ((recordOf symbol calls).account.bought + (c.fillQuantity.toNat : ℤ)) =
      (recordOf symbol calls).account.avg * (recordOf symbol calls).account.bought +
        c.fillPrice.toInt * (c.fillQuantity.toNat : ℤ) := by
  have hu := h.init.tracks.bought
  have hdvd : ((unitsOn true calls + c.fillQuantity.toNat : ℕ) : ℤ) ∣
      (recordOf symbol calls).weightedSum c.fillQuantity c.fillPrice := by
    by_cases hzero : (recordOf symbol calls).totalBought = 0
    · have hub : unitsOn true calls = 0 := by rw [← hu, hzero]; rfl
      rw [Position.weightedSum, hu, hub, Nat.cast_zero, mul_zero, zero_add, zero_add]
      exact Int.dvd_mul_left _ _
    · rw [← hu]
      exact (each_snoc.1 hdiv).2 hb hzero
  have he : (recordOf symbol calls).account.bought + (c.fillQuantity.toNat : ℤ) =
      (unitsOn true calls + c.fillQuantity.toNat : ℕ) := by
    rw [Nat.cast_add, ← hu]
    rfl
  rw [he, Int.ediv_mul_cancel hdvd]
  rfl

theorem avg_eq (h : Admissible symbol calls) (hdiv : DividesEvenly symbol calls) :
    (recordOf symbol calls).avgEntryPrice.toInt * unitsOn true calls = valueOn true calls := by
  induction calls using List.reverseRecOn with
  | nil => rfl
  | append_singleton calls c ih =>
    have hprev := ih h.init (each_snoc.1 hdiv).1
    cases hb : c.order.isBuy
    · have havg := congrArg Account.avg (h.account_sell hb)
      have hne : c.order.isBuy ≠ true := by rw [hb]; decide
      rw [unitsOn_other calls hne, valueOn_other hne, ← hprev]
      exact congrArg (· * _) havg
    · have havg := congrArg Account.avg (h.account_buy hb)
      have hmul := h.average_mul hdiv hb
      have hu : (recordOf symbol calls).account.bought = unitsOn true calls :=
        congrArg _ h.init.tracks.bought
      rw [hu, Nat.cast_add] at hmul
      rw [unitsOn_same calls hb, valueOn_same hb, ← hprev]
      simp only [Position.account, Account.buy] at havg hmul
      rw [havg, Nat.cast_add, hmul]
      ring

theorem averagePaid_eq (h : Admissible symbol calls) (hdiv : DividesEvenly symbol calls) :
    averagePaid calls = (recordOf symbol calls).avgEntryPrice.toInt := by
  rw [averagePaid, ← h.avg_eq hdiv]
  by_cases hu : unitsOn true calls = 0
  · rw [hu, h.tracks.blank hu]
    rfl
  · exact Int.mul_ediv_cancel _ (by omega)

end Admissible

/-- What the profit claims beyond the cash is changed only by a buy, away from the average, after
a sell. -/
theorem Admissible.excess_eq_iff (h : Admissible symbol (calls ++ [c]))
    (hdiv : DividesEvenly symbol (calls ++ [c])) :
    (recordOf symbol (calls ++ [c])).account.excess
        (valueOn false (calls ++ [c]) - valueOn true (calls ++ [c])) =
      (recordOf symbol calls).account.excess (valueOn false calls - valueOn true calls) ↔
    BuysAtAverage calls c := by
  cases hb : c.order.isBuy
  · refine iff_of_true ?_ fun ht => absurd ht (by rw [hb]; decide)
    rw [h.account_sell hb, valueOn_same hb, valueOn_other (by rw [hb]; decide), add_sub_right_comm]
    exact Account.excess_sell
  · have hq := h.last_quantity
    have hqz : (c.fillQuantity.toNat : ℤ) ≠ 0 := by omega
    have hbz : (recordOf symbol calls).account.bought + (c.fillQuantity.toNat : ℤ) ≠ 0 := by
      have hnonneg : 0 ≤ (recordOf symbol calls).account.bought := Int.natCast_nonneg _
      omega
    rw [h.account_buy hb, valueOn_same hb, valueOn_other (by rw [hb]; decide), ← sub_sub,
      Account.excess_buy_eq_iff (h.average_mul hdiv hb) hqz hbz, h.init.account_sold, BuysAtAverage,
      h.init.averagePaid_eq (each_snoc.1 hdiv).1, Nat.cast_eq_zero]
    exact ⟨fun hor _ => hor, fun hor => hor hb⟩

end Account

section Profit
variable {symbol : List UInt8} {calls : List PositionUpdate} {pos : Position} {p : Int64}
  {pm : PositionManager}

namespace Position

def unrealizedPnl (currentPrice : Int64) (pos : Position) : Int64 :=
  if pos.netPosition = 0 then 0
  else if pos.netPosition > 0 then (currentPrice - pos.avgEntryPrice) * pos.netPosition
  else (pos.avgEntryPrice - currentPrice) * -pos.netPosition

theorem unrealizedPnl_exact (h : pos.PnlFits p) : (pos.unrealizedPnl p).toInt =
    (p.toInt - pos.avgEntryPrice.toInt) * pos.netPosition.toInt := by
  rw [unrealizedPnl]
  obtain ⟨hzero | ⟨hpos, hdiff, hprod⟩ | ⟨hneg, hdiff, hminus, hprod⟩, -⟩ := h
  · rw [if_pos hzero, hzero, Int64.toInt_zero, mul_zero]
  · have hd := toInt_sub_of_fits hdiff
    rw [if_neg (Int64.ne_of_lt hpos).symm, if_pos hpos, toInt_mul_of_fits (by rwa [hd]), hd]
  · have hd := toInt_sub_of_fits hdiff
    have hm : (-pos.netPosition).toInt = -pos.netPosition.toInt :=
      (Int64.toInt_neg _).trans (bmod_eq_of_fits hminus)
    rw [if_neg (Int64.ne_of_lt hneg), if_neg (Int64.not_lt.2 (Int64.le_of_lt hneg)),
      toInt_mul_of_fits (by rwa [hd, hm]), hd, hm]
    ring

end Position

namespace PositionManager

theorem getRealizedPnl_eq : pm.getRealizedPnl symbol = (pm.position symbol).realizedPnl := by
  rw [getRealizedPnl, position]
  cases pm.mPositions symbol <;> rfl

theorem getUnrealizedPnl_eq :
    pm.getUnrealizedPnl symbol p = (pm.position symbol).unrealizedPnl p := by
  rw [getUnrealizedPnl, position]
  cases pm.mPositions symbol <;> rfl

theorem getTotalPnl_exact (h : (pm.position symbol).PnlFits p) :
    (pm.getTotalPnl symbol p).toInt = (pm.position symbol).account.profit p.toInt := by
  have hun := Position.unrealizedPnl_exact h
  have hsum := h.2
  rw [← hun] at hsum
  rw [getTotalPnl, getRealizedPnl_eq, getUnrealizedPnl_eq, toInt_add_of_fits hsum, hun]
  rfl

end PositionManager

theorem Admissible.pnlFits_avg (h : Admissible symbol calls) :
    (recordOf symbol calls).PnlFits (recordOf symbol calls).avgEntryPrice := by
  have ht := h.tracks
  set pos := recordOf symbol calls
  have hb := pos.totalBought.toNat_lt
  have hs := pos.totalSold.toNat_lt
  rw [ht.bought] at hb
  rw [ht.sold] at hs
  have hzero : FitsInt64 0 := by decide
  refine ⟨?_, ?_⟩
  · simp only [sub_self, zero_mul]
    rcases lt_trichotomy pos.netPosition.toInt 0 with hlt | heq | hgt
    · refine .inr (.inr ⟨Int64.lt_iff_toInt_lt.2 hlt, hzero, ?_, hzero⟩)
      rw [ht.net, FitsInt64]
      omega
    · exact .inl (Int64.toInt_inj.1 heq)
    · exact .inr (.inl ⟨Int64.lt_iff_toInt_lt.2 hgt, hzero, hzero⟩)
  · rw [sub_self, zero_mul, add_zero]
    exact ⟨Int64.le_toInt _, Int64.toInt_lt _⟩

theorem Admissible.marked_iff (h : Admissible symbol calls) (htrim : trimSpaces symbol = symbol) :
    MarkedToMarket symbol calls ↔
      (recordOf symbol calls).account.excess (valueOn false calls - valueOn true calls) = 0 := by
  have hrec : (PositionManager.record calls {}).position symbol = recordOf symbol calls := by
    rw [recordOf, htrim]
  have hprofit (p : Int64) : (recordOf symbol calls).account.profit p.toInt =
      valueOn false calls - valueOn true calls +
        (unitsOn true calls - unitsOn false calls) * p.toInt +
        (recordOf symbol calls).account.excess (valueOn false calls - valueOn true calls) := by
    rw [← h.tracks.net]
    exact Account.profit_eq _ _ _
  constructor
  · intro hm
    have hfits := h.pnlFits_avg
    rw [← hrec] at hfits
    have heq := hm _ hfits
    rw [PositionManager.getTotalPnl_exact hfits, hrec, hprofit, add_eq_left] at heq
    exact heq
  · intro hex p hfits
    rw [PositionManager.getTotalPnl_exact hfits, hrec, hprofit, hex, add_zero]

/-- No record is found under a name that ends in a space. -/
theorem Admissible.position_untrimmed (h : Admissible symbol calls)
    (htrim : trimSpaces symbol ≠ symbol) :
    (PositionManager.record calls {}).mPositions symbol = none := by
  induction calls using List.reverseRecOn with
  | nil => rfl
  | append_singleton calls c ih =>
    have hkey : c.order.key = trimSpaces symbol := congrArg trimSpaces (h.named c (by simp))
    rw [PositionManager.record_snoc, PositionManager.updatePosition, if_neg (h.filled c (by simp)),
      hkey]
    exact (Function.update_of_ne htrim.symm _ _).trans (ih h.init)

theorem Admissible.not_marked_first (h : Admissible symbol [c])
    (htrim : trimSpaces symbol ≠ symbol) : ¬ MarkedToMarket symbol [c] := by
  intro hm
  have hnone := h.position_untrimmed htrim
  have hpos : (PositionManager.record [c] {}).position symbol = {} := by
    rw [PositionManager.position, hnone]
    rfl
  have hfits (p : Int64) : ((PositionManager.record [c] {}).position symbol).PnlFits p := by
    rw [hpos]
    exact ⟨.inl rfl, by simp [FitsInt64]⟩
  have hzero (p : Int64) : (PositionManager.record [c] {}).getTotalPnl symbol p = 0 := by
    simp [PositionManager.getTotalPnl, PositionManager.getRealizedPnl,
      PositionManager.getUnrealizedPnl, hnone]
  have hq : 0 < c.fillQuantity.toNat := @Admissible.last_quantity symbol [] c h
  have h₀ := hm 0 (hfits 0)
  have h₁ := hm 1 (hfits 1)
  rw [hzero, Int64.toInt_zero, mul_zero, add_zero] at h₀
  rw [hzero, Int64.toInt_zero, ← h₀, zero_add, Int64.toInt_one, mul_one] at h₁
  cases hb : c.order.isBuy <;> simp [unitsOn, hb] at h₁ <;> omega

end Profit

/-- A sequence of calls leaves the profit marked to market all along exactly when the symbol is
stored under the name by which it is looked up and no buy after a sell moves the average price. -/
theorem marked_to_market_iff (h : Admissible symbol calls) (hdiv : DividesEvenly symbol calls) :
    Always (MarkedToMarket symbol) calls ↔
      (calls = [] ∨ trimSpaces symbol = symbol) ∧ Each BuysAtAverage calls := by
  by_cases htrim : trimSpaces symbol = symbol
  · have hstep : ∀ xs x, Each (fun pre c => Admissible symbol (pre ++ [c]) ∧
        DividesEvenly symbol (pre ++ [c])) (xs ++ [x]) → MarkedToMarket symbol xs →
        (MarkedToMarket symbol (xs ++ [x]) ↔ BuysAtAverage xs x) := by
      intro xs x hdom hxs
      obtain ⟨hadm, hdvd⟩ := (each_snoc.1 hdom).2
      rw [hadm.init.marked_iff htrim] at hxs
      rw [hadm.marked_iff htrim, ← hadm.excess_eq_iff hdvd, hxs]
    rw [always_iff_each ((Admissible.nil.marked_iff htrim).2 rfl) hstep
      fun pre c hpre => ⟨h.of_prefix hpre, hdiv.of_prefix hpre⟩]
    exact ⟨fun he => ⟨.inr htrim, he⟩, fun he => he.2⟩
  · cases calls with
    | nil =>
      refine iff_of_true (always_nil.2 ?_) ⟨.inl rfl, each_nil⟩
      intro p hp
      simp [PositionManager.record, PositionManager.getTotalPnl, PositionManager.getRealizedPnl,
        PositionManager.getUnrealizedPnl]
    | cons c calls =>
      have hpre : [c] <+: c :: calls := List.prefix_append [c] calls
      refine iff_of_false (fun hm => ?_) fun hc => ?_
      · exact (h.of_prefix hpre).not_marked_first htrim (hm [c] hpre)
      · exact hc.1.elim (List.cons_ne_nil _ _) htrim

def aaplFill (side : OrderSide) (q : UInt32) (x : Int64) : PositionUpdate :=
  ⟨{ symbol := Symbol.ofChars [65, 65, 80, 76], side }, q, x⟩

def AaplFills (calls : List PositionUpdate) : Prop :=
  Admissible [65, 65, 80, 76] calls ∧ DividesEvenly [65, 65, 80, 76] calls

theorem aaplFills_nil : AaplFills [] := ⟨Admissible.nil, each_nil⟩

theorem aaplFills_snoc (side : OrderSide) (q : UInt32) (x : Int64) (h : AaplFills calls)
    (hc : q ≠ 0 ∧ 0 ≤ x ∧ (recordOf [65, 65, 80, 76] calls).UpdateFits (aaplFill side q x))
    (hd : side = .SELL ∨ (((recordOf [65, 65, 80, 76] calls).totalBought.toNat + q.toNat : ℕ) : ℤ) ∣
      (recordOf [65, 65, 80, 76] calls).weightedSum q x) :
    AaplFills (calls ++ [aaplFill side q x]) := by
  have hname : (Symbol.ofChars [65, 65, 80, 76]).cstr = [65, 65, 80, 76] := by decide
  refine ⟨h.1.snoc hname hc.1 hc.2.1 hc.2.2, each_snoc.2 ⟨h.2, fun hb _ => hd.resolve_left ?_⟩⟩
  rintro rfl
  exact Bool.noConfusion hb

/-- A sale at a profit, and a buy at the average price after it. -/
theorem marked_to_market_sale :
    Always (MarkedToMarket [65, 65, 80, 76])
      [aaplFill .BUY 200 10000, aaplFill .SELL 100 10100, aaplFill .BUY 50 10000] := by
  have h₁ := aaplFills_snoc .BUY 200 10000 aaplFills_nil (by decide +kernel) (by decide +kernel)
  have h₂ := aaplFills_snoc .SELL 100 10100 h₁ (by decide +kernel) (by decide +kernel)
  have h₃ := aaplFills_snoc .BUY 50 10000 h₂ (by decide +kernel) (by decide +kernel)
  refine (marked_to_market_iff h₃.1 h₃.2).2 ⟨.inr (by decide), ?_⟩
  refine each_snoc.2 ⟨each_snoc.2 ⟨each_snoc.2 ⟨each_nil, ?_⟩, ?_⟩, ?_⟩
  · exact fun _ => .inl rfl
  · exact fun hb => absurd hb (by decide)
  · exact fun _ => .inr (by decide +kernel)

/-- A position is closed at a profit of 10000 and opened again: the books then say 25000 at the
price of the second buy. -/
theorem reopened_position_not_marked :
    AaplFills [aaplFill .BUY 100 10000, aaplFill .SELL 100 10100, aaplFill .BUY 100 10300] ∧
    ¬ MarkedToMarket [65, 65, 80, 76]
      [aaplFill .BUY 100 10000, aaplFill .SELL 100 10100, aaplFill .BUY 100 10300] := by
  have h₁ := aaplFills_snoc .BUY 100 10000 aaplFills_nil (by decide +kernel) (by decide +kernel)
  have h₂ := aaplFills_snoc .SELL 100 10100 h₁ (by decide +kernel) (by decide +kernel)
  have h₃ := aaplFills_snoc .BUY 100 10300 h₂ (by decide +kernel) (by decide +kernel)
  refine ⟨h₃, fun hm => ?_⟩
  have hpnl := hm 10300 (by decide +kernel)
  revert hpnl
  decide +kernel

end Velox
