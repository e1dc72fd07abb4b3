import Velox.Bots
import Velox.Lib.Leases

namespace Velox
set_option autoImplicit true

namespace OpenOrders

/-- The tracked open orders, as leases that a submission takes out. -/
def leases (b : OpenOrders) : List ℤ := b.mOpenOrderTtls.map (·.toInt)

def Live (b : OpenOrders) : Prop := ∀ ttl ∈ b.mOpenOrderTtls, 0 < ttl.toInt

/-- What `on_snapshot` may make of the tracked orders when it submits some. -/
structure Turns (b : OpenOrders) (orders : List Order) (b' : OpenOrders) : Prop where
  live : b'.Live
  turn : Leases.Turn maxOpenOrders orderTtl.toInt b.leases orders.length b'.leases

end OpenOrders

section Limits
variable {b b' : OpenOrders} {orders : List Order} {ttl : Int32} {order : Order}

namespace OpenOrders

theorem toInt_pred (h : 0 < ttl.toInt) : (ttl - 1).toInt = ttl.toInt - 1 := by
  have hlt := ttl.toInt_lt
  rw [Int32.toInt_sub, Int32.toInt_one]
  exact Int.bmod_eq_of_le (by omega) (by omega)

/-- While no counter wraps, the loop over them is the expiry of the leases. -/
theorem leases_expire (h : b.Live) : b.expire.leases = Leases.expire b.leases := by
  rw [leases, leases, expire, Leases.expire, List.map_map, List.filter_map, List.filter_map,
    List.map_map]
  have hmap : ∀ ttl ∈ b.mOpenOrderTtls, (ttl - 1).toInt = ttl.toInt - 1 :=
    fun ttl httl => toInt_pred (h ttl httl)
  have hfilter : b.mOpenOrderTtls.filter ((fun ttl : Int32 => decide (0 < ttl)) ∘ (· - 1)) =
      b.mOpenOrderTtls.filter
        ((fun l : ℤ => decide (0 < l)) ∘ ((· - 1) ∘ fun ttl : Int32 => ttl.toInt)) := by
    apply List.filter_congr
    intro ttl httl
    simp only [Function.comp_apply, Int32.lt_iff_toInt_lt, hmap ttl httl, Int32.toInt_zero]
  rw [hfilter]
  apply List.map_congr_left
  intro ttl httl
  exact hmap ttl (List.mem_of_mem_filter httl)

theorem live_expire (b : OpenOrders) : b.expire.Live := by
  intro ttl httl
  have hpos := (List.mem_filter.1 httl).2
  rwa [decide_eq_true_eq, Int32.lt_iff_toInt_lt, Int32.toInt_zero] at hpos

theorem length_leases (b : OpenOrders) : b.leases.length = b.mOpenOrderTtls.length :=
  List.length_map _

theorem Live.append (h : b.Live) (httl : 0 < ttl.toInt) (id : UInt64) :
    ({ b with mOrderId := id, mOpenOrderTtls := b.mOpenOrderTtls ++ [ttl] } : OpenOrders).Live := by
  intro t ht
  rcases List.mem_append.1 ht with ht | ht
  · exact h t ht
  · rwa [List.mem_singleton.1 ht]

namespace Turns

theorem none (hb : b.Live) (h : b'.mOpenOrderTtls = b.expire.mOpenOrderTtls) :
    Turns b [] b' := by
  have hlive : b'.Live := by
    rw [Live, h]
    exact b.live_expire
  refine ⟨hlive, ⟨[], ?_, rfl, ?_⟩, .inl rfl⟩
  · rw [List.append_nil, ← leases_expire hb, leases, h]
    rfl
  · intro l hl
    cases hl

theorem submit (hb : b.Live) (hroom : b.expire.mOpenOrderTtls.length < maxOpenOrders)
    (httl : orderTtl ≤ ttl) :
    Turns b (b.expire.submit order ttl).2 (b.expire.submit order ttl).1 := by
  rw [Int32.le_iff_toInt_le] at httl
  have hpos : 0 < orderTtl.toInt := by decide
  refine ⟨b.live_expire.append (hpos.trans_le httl) _, ⟨[ttl.toInt], ?_, rfl, ?_⟩, .inr ?_⟩
  · rw [← leases_expire hb]
    exact List.map_append
  · intro l hl
    rwa [List.mem_singleton.1 hl]
  · rw [length_leases]
    exact (List.length_append.trans_le hroom)

theorem place (hb : b.Live) (side : OrderSide) (price : Int64) (symbol : List UInt8) :
    Turns b (b.expire.place side price symbol).2 (b.expire.place side price symbol).1 := by
  rw [OpenOrders.place]
  split
  · rename_i hroom
    exact submit hb hroom (Int32.le_refl _)
  · exact none hb rfl

theorem placeChecked (hb : b.Live) (side : OrderSide) (price : Int64) (symbol : List UInt8) :
    Turns b (b.expire.placeChecked side price symbol).2
      (b.expire.placeChecked side price symbol).1 := by
  rw [OpenOrders.placeChecked]
  split
  · rename_i hroom
    exact submit hb hroom (Int32.le_refl _)
  · exact none hb rfl

theorem placeSpike (hb : b.Live) (hempty : b.expire.mOpenOrderTtls = []) (draws : Draws)
    (symbol : List UInt8) : Turns b (RandomWalkBot.placeSpike draws symbol b.expire).2
      (RandomWalkBot.placeSpike draws symbol b.expire).1 := by
  apply submit hb
  · rw [hempty]
    decide
  · decide

theorem ite {p : Prop} [Decidable p] {x y : OpenOrders × List Order} (hx : b.Turns x.2 x.1)
    (hy : b.Turns y.2 y.1) : b.Turns (if p then x else y).2 (if p then x else y).1 := by
  split
  · exact hx
  · exact hy

end Turns

end OpenOrders

theorem SpreadBot.turns (b : SpreadBot) (hb : b.Live) (snapshot : BookSnapshot) :
    b.Turns (b.onSnapshot snapshot).2 (b.onSnapshot snapshot).1.toOpenOrders := by
  rw [onSnapshot]
  split
  · exact .none hb rfl
  · apply OpenOrders.Turns.ite
    · exact .place hb _ _ _
    · apply OpenOrders.Turns.ite
      · exact .place hb _ _ _
      · exact .none hb rfl

theorem RandomWalkBot.turns (b : RandomWalkBot) (hb : b.Live) (snapshot : BookSnapshot)
    (draws : Draws) : b.Turns (b.onSnapshot snapshot draws).2
      (b.onSnapshot snapshot draws).1.toOpenOrders := by
  rw [onSnapshot]
  dsimp only
  split
  · exact .placeChecked hb _ _ _
  · split
    · exact .placeChecked hb _ _ _
    · split
      · rename_i hspike
        exact .placeSpike hb hspike.2.2 _ _
      · exact .none hb rfl

theorem MeanReversionBot.turns (b : MeanReversionBot) (hb : b.Live) (snapshot : BookSnapshot) :
    b.Turns (b.onSnapshot snapshot).2 (b.onSnapshot snapshot).1.toOpenOrders := by
  apply OpenOrders.Turns.ite
  · exact .none hb rfl
  · apply OpenOrders.Turns.ite
    · exact .none hb rfl
    · apply OpenOrders.Turns.ite
      · exact .place hb _ _ _
      · apply OpenOrders.Turns.ite
        · exact .place hb _ _ _
        · exact .none hb rfl

theorem MomentumBot.turns (b : MomentumBot) (hb : b.Live) (snapshot : BookSnapshot) :
    b.Turns (b.onSnapshot snapshot).2 (b.onSnapshot snapshot).1.toOpenOrders := by
  rw [onSnapshot]
  split
  · exact .none hb rfl
  · apply OpenOrders.Turns.ite
    · exact .place hb _ _ _
    · apply OpenOrders.Turns.ite
      · exact .place hb _ _ _
      · exact .none hb rfl

end Limits

/-- After any calls of `on_snapshot` at most three orders are tracked, and any next calls, up to a
thousand, submit at most three. -/
def Restrained (next : β → ι → β × List Order) (tracked : β → OpenOrders) (b : β) : Prop :=
  ∀ before : List ι, (tracked (Runs.transduce next b before).1).mOpenOrderTtls.length ≤ 3 ∧
    ∀ during : List ι, during.length ≤ 1000 →
      (Runs.transduce next (Runs.transduce next b before).1 during).2.flatten.length ≤ 3

theorem restrained_of_turns {next : β → ι → β × List Order} {tracked : β → OpenOrders} {b : β}
    (hturns : ∀ b i, (tracked b).Live → (tracked b).Turns (next b i).2 (tracked (next b i).1))
    (hb : (tracked b).mOpenOrderTtls = []) : Restrained next tracked b := by
  have hturn (b : β) (i : ι) (h : (tracked b).Live) : (tracked (next b i).1).Live ∧
      Leases.Turn OpenOrders.maxOpenOrders OpenOrders.orderTtl.toInt (tracked b).leases
        (next b i).2.length (tracked (next b i).1).leases :=
    ⟨(hturns b i h).live, (hturns b i h).turn⟩
  have hlive : (tracked b).Live := by
    rw [OpenOrders.Live, hb]
    intro ttl httl
    cases httl
  have hlen : (tracked b).leases.length ≤ OpenOrders.maxOpenOrders := by
    rw [OpenOrders.length_leases, hb]
    exact Nat.zero_le _
  intro before
  obtain ⟨hI, hle⟩ := Leases.held_le (fun b => (tracked b).leases) hturn hlive hlen before
  refine ⟨?_, fun during hd => ?_⟩
  · rwa [OpenOrders.length_leases] at hle
  · rw [List.length_flatten]
    apply Leases.granted_le (fun b => (tracked b).leases) hturn hI hle
    exact Int.ofNat_le.2 hd

/-- No bot of the four classes floods the book, whatever it is constructed with, whatever snapshots
it is shown and however the draws and comparisons come out. -/
theorem bots_restrained :
    (∀ (threshold : Int64) (quantity : UInt32),
      Restrained (fun b snapshot => b.onSnapshot snapshot) SpreadBot.toOpenOrders
        { mThreshold := threshold, mQuantity := quantity }) ∧
    (∀ (buyProb sellProb : ℚ) (quantity : UInt32),
      Restrained (fun b (i : BookSnapshot × Draws) => b.onSnapshot i.1 i.2)
        RandomWalkBot.toOpenOrders
        { mBuyProb := buyProb, mSellProb := sellProb, mQuantity := quantity }) ∧
    (∀ (lookback : ℕ) (zThreshold : Float) (quantity : UInt32),
      Restrained (fun b snapshot => b.onSnapshot snapshot) MeanReversionBot.toOpenOrders
        { mLookback := lookback, mZThreshold := zThreshold, mQuantity := quantity }) ∧
    ∀ (momentumThreshold : Int64) (quantity : UInt32),
      Restrained (fun b snapshot => b.onSnapshot snapshot) MomentumBot.toOpenOrders
        { mMomentumThreshold := momentumThreshold, mQuantity := quantity } := by
  refine ⟨fun _ _ => ?_, fun _ _ _ => ?_, fun _ _ _ => ?_, fun _ _ => ?_⟩
  · exact restrained_of_turns (fun b i hb => b.turns hb i) rfl
  · exact restrained_of_turns (fun b i hb => b.turns hb i.1 i.2) rfl
  · exact restrained_of_turns (fun b i hb => b.turns hb i) rfl
  · exact restrained_of_turns (fun b i hb => b.turns hb i) rfl

end Velox
