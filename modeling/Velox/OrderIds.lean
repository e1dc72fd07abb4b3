import Velox.BotManager

namespace Velox
set_option autoImplicit true

inductive BotClass
  | marketMaker | spread | randomWalk | meanReversion | momentum
  deriving DecidableEq

/-- The number after which a class starts. -/
def BotClass.base : BotClass → ℕ
  | .marketMaker => 50000
  | .spread => 10000
  | .randomWalk => 20000
  | .meanReversion => 30000
  | .momentum => 40000

/-- The last number before another class starts, or before the counter wraps. -/
def BotClass.last : BotClass → ℕ
  | .marketMaker => 2 ^ 64 - 1
  | .spread => 20000
  | .randomWalk => 30000
  | .meanReversion => 40000
  | .momentum => 50000

def Strategy.botClass : Strategy → BotClass
  | .marketMaker _ => .marketMaker
  | .spread _ => .spread
  | .randomWalk _ => .randomWalk
  | .meanReversion _ => .meanReversion
  | .momentum _ => .momentum

def Strategy.orderId : Strategy → UInt64
  | .marketMaker b => b.mOrderId
  | .spread b => b.mOrderId
  | .randomWalk b => b.mOrderId
  | .meanReversion b => b.mOrderId
  | .momentum b => b.mOrderId

def Strategy.openOrders : Strategy → List Int32
  | .marketMaker _ => []
  | .spread b => b.mOpenOrderTtls
  | .randomWalk b => b.mOpenOrderTtls
  | .meanReversion b => b.mOpenOrderTtls
  | .momentum b => b.mOpenOrderTtls

/-- How many numbers a bot draws for one snapshot at most. -/
def BotClass.width : BotClass → ℕ
  | .marketMaker => 2
  | _ => 1

/-- The orders submitted after `k` numbers were drawn; one may be drawn for nothing. -/
inductive Numbered (c : UInt64) : ℕ → List Order → Prop
  | none : Numbered c 0 []
  | lost : Numbered c 1 []
  | one {o : Order} (h : o.orderId = c + 1) : Numbered c 1 [o]
  | two {o o' : Order} (h : o.orderId = c + 1) (h' : o'.orderId = c + 1 + 1) :
      Numbered c 2 [o, o']

theorem Numbered.fresh (h : Numbered c k os) (hk : c.toNat + k < 2 ^ 64) :
    (∀ o ∈ os, c.toNat < o.orderId.toNat ∧ o.orderId.toNat ≤ c.toNat + k) ∧
      os.Pairwise fun o o' => o.orderId ≠ o'.orderId := by
  have hone : k ≠ 0 → (c + 1).toNat = c.toNat + 1 := fun hz => by
    rw [UInt64.toNat_add, UInt64.toNat_one, Nat.mod_eq_of_lt (by omega)]
  cases h with
  | none => exact ⟨List.forall_mem_nil _, .nil⟩
  | lost => exact ⟨List.forall_mem_nil _, .nil⟩
  | one h =>
    refine ⟨List.forall_mem_singleton.2 ?_, List.pairwise_singleton _ _⟩
    rw [h, hone (by decide)]
    omega
  | two h h' =>
    have hfirst := hone (by decide)
    have htwo : (c + 1 + 1).toNat = c.toNat + 2 := by
      rw [UInt64.toNat_add, hfirst, UInt64.toNat_one, Nat.mod_eq_of_lt (by omega)]
    refine ⟨List.forall_mem_cons.2 ⟨?_, List.forall_mem_singleton.2 ?_⟩, ?_⟩
    · rw [h, hfirst]
      omega
    · rw [h', htwo]
      omega
    · refine List.pairwise_pair.2 fun he => ?_
      rw [h, h', ← UInt64.toNat_inj, hfirst, htwo] at he
      omega

/-- What a call does to a counter and a list of open orders: of a bot without open orders the first
number drawn is used. -/
structure Acts (width : ℕ) (c c' : UInt64) (opened opened' : List Int32) (os : List Order) :
    Prop where
  numbered : ∃ k ≤ width, c' = c + UInt64.ofNat k ∧ Numbered c k os
  first : opened = [] → (c' = c ∧ opened' = [] ∧ os = []) ∨ ∃ o ∈ os, o.orderId = c + 1

namespace OpenOrders

variable {b b' : OpenOrders} {side : OrderSide} {price : Int64} {symbol : List UInt8}
  {os : List Order} {ttl : Int32} {o : Order}

/-- The same for one of the bots that keep track of their open orders. -/
def Acts (b b' : OpenOrders) (os : List Order) : Prop :=
  Velox.Acts 1 b.mOrderId b'.mOrderId b.mOpenOrderTtls b'.mOpenOrderTtls os

theorem acts_refl (b : OpenOrders) : b.Acts b [] where
  numbered := ⟨0, by omega, (UInt64.add_zero _).symm, .none⟩
  first := fun h => .inl ⟨rfl, h, rfl⟩

theorem acts_submit (h : o.orderId = b.mOrderId + 1) :
    b.Acts (b.submit o ttl).1 (b.submit o ttl).2 where
  numbered := ⟨1, le_rfl, h, .one h⟩
  first := fun _ => .inr ⟨o, List.mem_singleton_self o, h⟩

theorem acts_place (side : OrderSide) (price : Int64) (symbol : List UInt8) (b : OpenOrders) :
    b.Acts (b.place side price symbol).1 (b.place side price symbol).2 := by
  rw [place]
  split
  · exact acts_submit rfl
  · rename_i hfull
    refine ⟨⟨1, le_rfl, rfl, .lost⟩, fun h => ?_⟩
    rw [h] at hfull
    exact absurd (by decide) hfull

theorem acts_placeChecked (side : OrderSide) (price : Int64) (symbol : List UInt8)
    (b : OpenOrders) :
    b.Acts (b.placeChecked side price symbol).1 (b.placeChecked side price symbol).2 := by
  rw [placeChecked]
  split
  · exact acts_submit rfl
  · exact acts_refl b

theorem Acts.of_expire (h : b.expire.Acts b' os) : b.Acts b' os where
  numbered := h.numbered
  first := fun he => h.first (by rw [expire, he]; rfl)

end OpenOrders

namespace TradingBot

def botClass (b : TradingBot) : BotClass := b.strategy.botClass

def orderId (b : TradingBot) : UInt64 := b.strategy.orderId

structure Acts (b b' : TradingBot) (os : List Order) : Prop where
  symbol : b'.mSymbol = b.mSymbol
  botClass : b'.botClass = b.botClass
  acts : Velox.Acts b.botClass.width b.orderId b'.orderId b.strategy.openOrders
    b'.strategy.openOrders os

end TradingBot

namespace MarketMakerBot

variable {b : MarketMakerBot}

theorem acts_onSnapshot (symbol : List UInt8) (snapshot : BookSnapshot) (n : Int32)
    (b : MarketMakerBot) :
    Velox.Acts 2 b.mOrderId (b.onSnapshot symbol snapshot n).1.mOrderId [] []
      (b.onSnapshot symbol snapshot n).2.1 := by
  have hid : ∀ m : MarketMakerBot, (if snapshot.midPrice > 0 then
      { m with mBasePrice := snapshot.midPrice.toInt64 } else m).mOrderId = m.mOrderId := fun m => by
    split <;> rfl
  rw [onSnapshot]
  split
  · exact ⟨⟨0, by omega, (UInt64.add_zero _).symm, .none⟩, fun _ => .inl ⟨rfl, rfl, rfl⟩⟩
  · simp only [hid]
    split <;> split
    · exact ⟨⟨0, by omega, (UInt64.add_zero _).symm, .none⟩, fun _ => .inl ⟨rfl, rfl, rfl⟩⟩
    · exact ⟨⟨1, by omega, rfl, .one rfl⟩, fun _ => .inr ⟨_, List.mem_singleton_self _, rfl⟩⟩
    · exact ⟨⟨1, by omega, rfl, .one rfl⟩, fun _ => .inr ⟨_, List.mem_singleton_self _, rfl⟩⟩
    · exact ⟨⟨2, by omega, UInt64.add_assoc _ 1 1, .two rfl rfl⟩,
        fun _ => .inr ⟨_, List.mem_cons_self, rfl⟩⟩

end MarketMakerBot

theorem SpreadBot.acts_onSnapshot (snapshot : BookSnapshot) (b : SpreadBot) :
    b.toOpenOrders.Acts (b.onSnapshot snapshot).1.toOpenOrders (b.onSnapshot snapshot).2 := by
  apply OpenOrders.Acts.of_expire
  rw [onSnapshot]
  split
  · exact OpenOrders.acts_refl _
  · dsimp only
    split
    · exact OpenOrders.acts_place ..
    · split
      · exact OpenOrders.acts_place ..
      · exact OpenOrders.acts_refl _

theorem RandomWalkBot.acts_onSnapshot (snapshot : BookSnapshot) (draws : Draws) (b : RandomWalkBot) :
    b.toOpenOrders.Acts (b.onSnapshot snapshot draws).1.toOpenOrders
      (b.onSnapshot snapshot draws).2 := by
  apply OpenOrders.Acts.of_expire
  rw [onSnapshot]
  split
  · exact OpenOrders.acts_placeChecked ..
  · split
    · exact OpenOrders.acts_placeChecked ..
    · split
      · exact OpenOrders.acts_submit rfl
      · exact OpenOrders.acts_refl _

theorem MeanReversionBot.acts_onSnapshot (snapshot : BookSnapshot) (b : MeanReversionBot) :
    b.toOpenOrders.Acts (b.onSnapshot snapshot).1.toOpenOrders (b.onSnapshot snapshot).2 := by
  apply OpenOrders.Acts.of_expire
  rw [onSnapshot]
  dsimp only
  generalize (if (b.mPrices ++ [snapshot.midPrice]).length > b.mLookback then
    (b.mPrices ++ [snapshot.midPrice]).tail else b.mPrices ++ [snapshot.midPrice]) = prices
  split
  · exact OpenOrders.acts_refl _
  · split
    · exact OpenOrders.acts_refl _
    · split
      · exact OpenOrders.acts_place ..
      · split
        · exact OpenOrders.acts_place ..
        · exact OpenOrders.acts_refl _

theorem MomentumBot.acts_onSnapshot (snapshot : BookSnapshot) (b : MomentumBot) :
    b.toOpenOrders.Acts (b.onSnapshot snapshot).1.toOpenOrders (b.onSnapshot snapshot).2 := by
  apply OpenOrders.Acts.of_expire
  rw [onSnapshot]
  split
  · exact OpenOrders.acts_refl _
  · dsimp only
    split
    · exact OpenOrders.acts_place ..
    · split
      · exact OpenOrders.acts_place ..
      · exact OpenOrders.acts_refl _

namespace TradingBot

theorem acts_onSnapshot (snapshot : BookSnapshot) (draws : Draws) (n : Int32) (b : TradingBot) :
    b.Acts (b.onSnapshot snapshot draws n).1 (b.onSnapshot snapshot draws n).2.1 := by
  obtain ⟨symbol, strategy⟩ := b
  cases strategy with
  | marketMaker m => exact ⟨rfl, rfl, m.acts_onSnapshot symbol snapshot n⟩
  | spread m => exact ⟨rfl, rfl, m.acts_onSnapshot snapshot⟩
  | randomWalk m => exact ⟨rfl, rfl, m.acts_onSnapshot snapshot draws⟩
  | meanReversion m => exact ⟨rfl, rfl, m.acts_onSnapshot snapshot⟩
  | momentum m => exact ⟨rfl, rfl, m.acts_onSnapshot snapshot⟩

/-- The numbers that the bot may draw for one snapshot are left in its block. -/
def Room (b : TradingBot) : Prop := b.orderId.toNat + b.botClass.width ≤ b.botClass.last

instance : DecidablePred Room := fun _ => inferInstanceAs (Decidable (_ ≤ _))

/-- The bot has drawn no number, and has placed no order. -/
structure Untouched (b : TradingBot) : Prop where
  orderId : b.orderId.toNat = b.botClass.base
  idle : b.strategy.openOrders = []

variable {b b' : TradingBot} {os : List Order}

theorem last_lt (c : BotClass) : c.last < 2 ^ 64 := by cases c <;> decide

theorem Acts.refl (b : TradingBot) : b.Acts b [] where
  symbol := rfl
  botClass := rfl
  acts := ⟨⟨0, Nat.zero_le _, (UInt64.add_zero _).symm, .none⟩, fun h => .inl ⟨rfl, h, rfl⟩⟩

theorem Acts.fresh (h : b.Acts b' os) (hroom : b.Room) :
    b.orderId.toNat ≤ b'.orderId.toNat ∧ b'.orderId.toNat ≤ b.botClass.last ∧
      (∀ o ∈ os, b.orderId.toNat < o.orderId.toNat ∧ o.orderId.toNat ≤ b'.orderId.toNat) ∧
      os.Pairwise fun o o' => o.orderId ≠ o'.orderId := by
  obtain ⟨k, hk, hc, hn⟩ := h.acts.numbered
  have hlast := last_lt b.botClass
  rw [Room] at hroom
  have hlt : b.orderId.toNat + k < 2 ^ 64 := by omega
  have hnat : b'.orderId.toNat = b.orderId.toNat + k := by
    rw [hc, UInt64.toNat_add, UInt64.toNat_ofNat', Nat.mod_eq_of_lt (by omega : k < 2 ^ 64),
      Nat.mod_eq_of_lt hlt]
  obtain ⟨hfresh, hpair⟩ := hn.fresh hlt
  rw [hnat]
  exact ⟨by omega, by omega, hfresh, hpair⟩

theorem Acts.untouched (h : b.Acts b' os) (hu : b.Untouched) :
    (b'.Untouched ∧ os = []) ∨ ∃ o ∈ os, o.orderId.toNat = b.botClass.base + 1 := by
  rcases h.acts.first hu.idle with ⟨hid, hopen, hos⟩ | ⟨o, ho, hid⟩
  · exact .inl ⟨⟨by rw [hid, hu.orderId, h.botClass], hopen⟩, hos⟩
  · refine .inr ⟨o, ho, ?_⟩
    have hbase : b.botClass.base + 1 < 2 ^ 64 := by cases b.botClass <;> decide
    rw [hid, UInt64.toNat_add, hu.orderId, UInt64.toNat_one, Nat.mod_eq_of_lt hbase]

end TradingBot

def submittedBy (i : ℕ) (xs : List Submission) : List Order :=
  (xs.filter fun x => x.bot = i).map fun x => x.order

@[simp] theorem submittedBy_append (i : ℕ) (xs ys : List Submission) :
    submittedBy i (xs ++ ys) = submittedBy i xs ++ submittedBy i ys := by
  rw [submittedBy, List.filter_append, List.map_append]
  rfl

theorem mem_submittedBy {x : Submission} {xs : List Submission} (h : x ∈ xs) :
    x.order ∈ submittedBy x.bot xs :=
  List.mem_map.2 ⟨x, List.mem_filter.2 ⟨h, decide_eq_true rfl⟩, rfl⟩

theorem exists_of_submittedBy {o : Order} {i : ℕ} {xs : List Submission}
    (h : o ∈ submittedBy i xs) : ∃ x ∈ xs, x.bot = i ∧ x.order = o := by
  obtain ⟨x, hx, rfl⟩ := List.mem_map.1 h
  obtain ⟨hx, hi⟩ := List.mem_filter.1 hx
  exact ⟨x, hx, of_decide_eq_true hi, rfl⟩

theorem submittedBy_map_self (i : ℕ) (os : List Order) :
    submittedBy i (os.map (⟨i, ·⟩)) = os := by
  rw [submittedBy, List.filter_eq_self.2, List.map_map]
  · exact List.map_id os
  · rintro x hx
    obtain ⟨o, -, rfl⟩ := List.mem_map.1 hx
    exact decide_eq_true rfl

theorem submittedBy_eq_nil {i : ℕ} {xs : List Submission} (h : ∀ x ∈ xs, x.bot ≠ i) :
    submittedBy i xs = [] := by
  rw [submittedBy, List.filter_eq_nil_iff.2, List.map_nil]
  exact fun x hx => by simpa using h x hx

namespace BotManager

variable {snapshot : BookSnapshot} {draws : ℕ → Draws} {bs : List TradingBot} {i k : ℕ} {n : Int32}
  {b : TradingBot} {x : Submission}

def notify (snapshot : BookSnapshot) (draws : Draws) (n : Int32) (b : TradingBot) :
    TradingBot × List Order × Int32 :=
  if b.mSymbol = snapshot.symbol.cstr then b.onSnapshot snapshot draws n else (b, [], n)

theorem acts_notify (snapshot : BookSnapshot) (draws : Draws) (n : Int32) (b : TradingBot) :
    b.Acts (notify snapshot draws n b).1 (notify snapshot draws n b).2.1 := by
  rw [notify]
  split
  · exact b.acts_onSnapshot snapshot draws n
  · exact .refl b

theorem deliver_cons (snapshot : BookSnapshot) (draws : ℕ → Draws) (i : ℕ) (n : Int32)
    (b : TradingBot) (bs : List TradingBot) :
    deliver snapshot draws i n (b :: bs) =
      ((notify snapshot (draws i) n b).1 ::
          (deliver snapshot draws (i + 1) (notify snapshot (draws i) n b).2.2 bs).1,
        (notify snapshot (draws i) n b).2.1.map (⟨i, ·⟩) ++
          (deliver snapshot draws (i + 1) (notify snapshot (draws i) n b).2.2 bs).2.1,
        (deliver snapshot draws (i + 1) (notify snapshot (draws i) n b).2.2 bs).2.2) := rfl

theorem deliver_bot (h : x ∈ (deliver snapshot draws i n bs).2.1) :
    ∃ k b, x.bot = i + k ∧ bs[k]? = some b ∧ b.mSymbol = snapshot.symbol.cstr := by
  induction bs generalizing i n with
  | nil => cases h
  | cons b bs ih =>
    rw [deliver_cons] at h
    rcases List.mem_append.1 h with h | h
    · obtain ⟨o, ho, rfl⟩ := List.mem_map.1 h
      refine ⟨0, b, rfl, rfl, ?_⟩
      by_contra hne
      rw [notify, if_neg hne] at ho
      cases ho
    · obtain ⟨k, b', hk, hb, hs⟩ := ih h
      exact ⟨k + 1, b', by omega, hb, hs⟩

/-- The count of updates that the bot at a place finds. -/
def countAt (snapshot : BookSnapshot) (draws : ℕ → Draws) (i : ℕ) (n : Int32) (bs : List TradingBot)
    (k : ℕ) : Int32 := (deliver snapshot draws i n (bs.take k)).2.2

variable (snapshot draws i n) in
theorem deliver_at (h : bs[k]? = some b) :
    (deliver snapshot draws i n bs).1[k]? =
        some (notify snapshot (draws (i + k)) (countAt snapshot draws i n bs k) b).1 ∧
      submittedBy (i + k) (deliver snapshot draws i n bs).2.1 =
        (notify snapshot (draws (i + k)) (countAt snapshot draws i n bs k) b).2.1 := by
  induction bs generalizing i n k with
  | nil => cases h
  | cons c bs ih =>
    rw [deliver_cons, submittedBy_append]
    cases k with
    | zero =>
      obtain rfl := Option.some.inj h
      refine ⟨rfl, ?_⟩
      rw [Nat.add_zero, submittedBy_map_self, submittedBy_eq_nil, List.append_nil]
      · rfl
      · intro x hx he
        obtain ⟨k, b', hk, -⟩ := deliver_bot hx
        omega
    | succ k =>
      obtain ⟨hbot, hos⟩ := ih (i + 1) (notify snapshot (draws i) n c).2.2 h
      rw [Nat.add_right_comm, Nat.add_assoc] at hbot hos
      refine ⟨hbot, ?_⟩
      rw [submittedBy_eq_nil (i := i + (k + 1)), List.nil_append, hos]
      · rfl
      · intro x hx
        obtain ⟨o, -, rfl⟩ := List.mem_map.1 hx
        change i ≠ _
        omega

theorem deliver_length (snapshot : BookSnapshot) (draws : ℕ → Draws) (i : ℕ) (n : Int32)
    (bs : List TradingBot) : (deliver snapshot draws i n bs).1.length = bs.length := by
  induction bs generalizing i n with
  | nil => rfl
  | cons b bs ih => rw [deliver_cons, List.length_cons, List.length_cons, ih]

theorem foldl_registerBot (bs : List TradingBot) (m : BotManager) :
    bs.foldl (fun m bot => m.registerBot bot) m = { m with mBots := m.mBots ++ bs } := by
  induction bs generalizing m with
  | nil => rw [List.foldl_nil, List.append_nil]
  | cons b bs ih =>
    rw [List.foldl_cons, ih, registerBot, List.append_assoc]
    rfl

theorem pushAll_frame (xs : List Submission) (m : BotManager) :
    (xs.foldl (fun m x => m.pushOrder x.order) m).mBots = m.mBots ∧
      (xs.foldl (fun m x => m.pushOrder x.order) m).updateCount = m.updateCount := by
  induction xs generalizing m with
  | nil => exact ⟨rfl, rfl⟩
  | cons x xs ih => exact ih _

theorem mBots_onSnapshot (snapshot : BookSnapshot) (draws : ℕ → Draws) (m : BotManager) :
    (m.onSnapshot snapshot draws).2.mBots = (deliver snapshot draws 0 m.updateCount m.mBots).1 :=
  (pushAll_frame ..).1

theorem updateCount_onSnapshot (snapshot : BookSnapshot) (draws : ℕ → Draws) (m : BotManager) :
    (m.onSnapshot snapshot draws).2.updateCount =
      (deliver snapshot draws 0 m.updateCount m.mBots).2.2 :=
  (pushAll_frame ..).2

end BotManager

def UniqueIds (log : List Submission) : Prop :=
  log.Pairwise fun x y => x.order.orderId ≠ y.order.orderId

def classAt (bots : List TradingBot) (i : ℕ) : Option BotClass := bots[i]?.map TradingBot.botClass

/-- Of every class at most one bot has submitted orders. -/
def Alone (bots : List TradingBot) (log : List Submission) : Prop :=
  ∀ x ∈ log, ∀ y ∈ log, classAt bots x.bot = classAt bots y.bot → x.bot = y.bot

/-- A bot that has drawn a number has submitted an order with its first one. -/
structure Traced (bots : List TradingBot) (log : List Submission) : Prop where
  known : ∀ x ∈ log, ∃ b, bots[x.bot]? = some b
  first : ∀ i b, bots[i]? = some b → (b.Untouched ∧ ∀ x ∈ log, x.bot ≠ i) ∨
    ∃ x ∈ log, x.bot = i ∧ x.order.orderId.toNat = b.botClass.base + 1

/-- Every bot has kept to its block of numbers, and has had it for itself. -/
structure Orderly (bots : List TradingBot) (log : List Submission) : Prop where
  known : ∀ x ∈ log, ∃ b, bots[x.bot]? = some b
  profile : (bots.map fun b => (b.mSymbol, b.botClass)).Nodup
  started : ∀ b ∈ bots, b.botClass.base ≤ b.orderId.toNat
  block : ∀ i b, bots[i]? = some b → ∀ o ∈ submittedBy i log,
    b.botClass.base < o.orderId.toNat ∧ o.orderId.toNat ≤ b.orderId.toNat ∧
      o.orderId.toNat ≤ b.botClass.last
  distinct : ∀ i, (submittedBy i log).Pairwise fun o o' => o.orderId ≠ o'.orderId
  alone : Alone bots log

section Log

variable {bots bots' : List TradingBot} {log xs : List Submission} {x y : Submission} {i : ℕ}
  {b : TradingBot}

/-- A relation holds between all entries of a log when it holds between those of each bot and those
of different bots. -/
theorem pairwise_of_submittedBy {R : Order → Order → Prop}
    (hsame : ∀ i, (submittedBy i xs).Pairwise R)
    (hother : ∀ x ∈ xs, ∀ y ∈ xs, x.bot ≠ y.bot → R x.order y.order) :
    xs.Pairwise fun x y => R x.order y.order := by
  induction xs with
  | nil => exact .nil
  | cons x xs ih =>
    refine List.pairwise_cons.2 ⟨fun y hy => ?_, ih (fun i => ?_) fun y hy z hz =>
      hother y (List.mem_cons_of_mem _ hy) z (List.mem_cons_of_mem _ hz)⟩
    · by_cases he : x.bot = y.bot
      · have hcons : submittedBy x.bot (x :: xs) = x.order :: submittedBy x.bot xs := by
          simp [submittedBy]
        have hbot := hsame x.bot
        rw [hcons, he] at hbot
        exact (List.pairwise_cons.1 hbot).1 _ (mem_submittedBy hy)
      · exact hother x List.mem_cons_self y (List.mem_cons_of_mem _ hy) he
    · refine (hsame i).sublist ?_
      exact (List.Sublist.filter _ (List.sublist_cons_self x xs)).map _

theorem block_disjoint {c c' : BotClass} {n : ℕ} (hc : c ≠ c') (h : c.base < n ∧ n ≤ c.last)
    (h' : c'.base < n ∧ n ≤ c'.last) : False := by
  cases c <;> cases c' <;> first | exact hc rfl | (simp only [BotClass.base, BotClass.last] at h h'; omega)

theorem Orderly.unique (h : Orderly bots log) : UniqueIds log := by
  apply pairwise_of_submittedBy h.distinct
  intro x hx y hy hne he
  obtain ⟨b, hb⟩ := h.known x hx
  obtain ⟨c, hc⟩ := h.known y hy
  obtain ⟨hlow, -, hhigh⟩ := h.block x.bot b hb _ (mem_submittedBy hx)
  obtain ⟨hlow', -, hhigh'⟩ := h.block y.bot c hc _ (mem_submittedBy hy)
  have hclass : b.botClass ≠ c.botClass := fun hclass => hne (h.alone x hx y hy (by
    rw [classAt, classAt, hb, hc, Option.map_some, Option.map_some, hclass]))
  rw [he] at hlow hhigh
  exact block_disjoint hclass ⟨hlow, hhigh⟩ ⟨hlow', hhigh'⟩

theorem UniqueIds.eq_of_orderId (h : UniqueIds log) (hx : x ∈ log) (hy : y ∈ log)
    (he : x.order.orderId = y.order.orderId) : x = y := by
  have hnd : (log.map fun x => x.order.orderId).Nodup := List.pairwise_map.2 h
  exact List.inj_on_of_nodup_map hnd hx hy he

theorem Traced.alone (h : Traced bots log) (hu : UniqueIds log) : Alone bots log := by
  intro x hx y hy hclass
  obtain ⟨b, hb⟩ := h.known x hx
  obtain ⟨c, hc⟩ := h.known y hy
  rw [classAt, classAt, hb, hc, Option.map_some, Option.map_some, Option.some.injEq] at hclass
  obtain ⟨x', hx', hxb, hxid⟩ := (h.first x.bot b hb).resolve_left fun hn => hn.2 x hx rfl
  obtain ⟨y', hy', hyb, hyid⟩ := (h.first y.bot c hc).resolve_left fun hn => hn.2 y hy rfl
  have he : x' = y' := hu.eq_of_orderId hx' hy' (UInt64.toNat_inj.1 (by rw [hxid, hyid, hclass]))
  rw [← hxb, ← hyb, he]

end Log

namespace BotManager

section Deliver

variable {bots : List TradingBot} {log : List Submission} {snapshot : BookSnapshot}
  {draws : ℕ → Draws} {n : Int32} {k : ℕ} {b b' : TradingBot} {x y : Submission}

variable (snapshot draws n) in
theorem bot_after (h : bots[k]? = some b) :
    ∃ b', (deliver snapshot draws 0 n bots).1[k]? = some b' ∧
      b.Acts b' (submittedBy k (deliver snapshot draws 0 n bots).2.1) := by
  obtain ⟨hbot, hos⟩ := deliver_at snapshot draws 0 n h
  rw [Nat.zero_add] at hbot hos
  refine ⟨_, hbot, ?_⟩
  rw [hos]
  exact acts_notify ..

theorem bot_before (h : (deliver snapshot draws 0 n bots).1[k]? = some b') :
    ∃ b, bots[k]? = some b ∧
      b.Acts b' (submittedBy k (deliver snapshot draws 0 n bots).2.1) := by
  have hk := (List.getElem?_eq_some_iff.1 h).1
  rw [deliver_length] at hk
  obtain ⟨c, hc, ha⟩ := bot_after snapshot draws n
    (List.getElem?_eq_getElem hk)
  obtain rfl := Option.some.inj (hc.symm.trans h)
  exact ⟨_, List.getElem?_eq_getElem hk, ha⟩

theorem submission_bot (h : x ∈ (deliver snapshot draws 0 n bots).2.1) :
    ∃ b, bots[x.bot]? = some b ∧ b.mSymbol = snapshot.symbol.cstr := by
  obtain ⟨k, b, hk, hb, hs⟩ := deliver_bot h
  rw [Nat.zero_add] at hk
  exact ⟨b, hk ▸ hb, hs⟩

theorem profile_deliver {g : TradingBot → α}
    (hg : ∀ b b' : TradingBot, b'.mSymbol = b.mSymbol → b'.botClass = b.botClass → g b' = g b) :
    (deliver snapshot draws 0 n bots).1.map g = bots.map g := by
  refine List.ext_getElem? fun k => ?_
  rw [List.getElem?_map, List.getElem?_map]
  cases hb : bots[k]? with
  | none =>
    rw [List.getElem?_eq_none_iff] at hb
    rw [List.getElem?_eq_none (by rwa [deliver_length])]
  | some b =>
    obtain ⟨b', hb', ha⟩ := bot_after snapshot draws n hb
    rw [hb', Option.map_some, Option.map_some, hg b b' ha.symbol ha.botClass]

theorem classAt_deliver (k : ℕ) : classAt (deliver snapshot draws 0 n bots).1 k = classAt bots k := by
  rw [classAt, classAt, ← List.getElem?_map, ← List.getElem?_map,
    profile_deliver fun b b' _ hc => hc]

theorem known_deliver (h : ∀ x ∈ log, ∃ b, bots[x.bot]? = some b) :
    ∀ x ∈ log ++ (deliver snapshot draws 0 n bots).2.1,
      ∃ b, (deliver snapshot draws 0 n bots).1[x.bot]? = some b := by
  intro x hx
  have hbot : ∃ b, bots[x.bot]? = some b := by
    rcases List.mem_append.1 hx with hx | hx
    · exact h x hx
    · obtain ⟨b, hb, -⟩ := submission_bot hx
      exact ⟨b, hb⟩
  obtain ⟨b, hb⟩ := hbot
  obtain ⟨b', hb', -⟩ := bot_after snapshot draws n hb
  exact ⟨b', hb'⟩

theorem traced_deliver (h : Traced bots log) :
    Traced (deliver snapshot draws 0 n bots).1
      (log ++ (deliver snapshot draws 0 n bots).2.1) where
  known := known_deliver h.known
  first := fun i b' hb' => by
    obtain ⟨b, hb, ha⟩ := bot_before hb'
    rw [ha.botClass]
    rcases h.first i b hb with ⟨hu, hnone⟩ | ⟨x, hx, hi, hid⟩
    · rcases ha.untouched hu with ⟨hu', hos⟩ | ⟨o, ho, hid⟩
      · refine .inl ⟨hu', fun x hx => ?_⟩
        rcases List.mem_append.1 hx with hx | hx
        · exact hnone x hx
        · rintro rfl
          have hmem := mem_submittedBy hx
          rw [hos] at hmem
          cases hmem
      · obtain ⟨x, hx, hi, rfl⟩ := exists_of_submittedBy ho
        exact .inr ⟨x, List.mem_append_right _ hx, hi, hid⟩
    · exact .inr ⟨x, List.mem_append_left _ hx, hi, hid⟩

theorem orderly_deliver (h : Orderly bots log) (hroom : ∀ b ∈ bots, b.Room)
    (halone : ∀ x ∈ (deliver snapshot draws 0 n bots).2.1, ∀ y ∈ log,
      classAt bots x.bot = classAt bots y.bot → x.bot = y.bot) :
    Orderly (deliver snapshot draws 0 n bots).1
      (log ++ (deliver snapshot draws 0 n bots).2.1) where
  known := known_deliver h.known
  profile := by
    rw [profile_deliver fun b b' hs hc => by rw [hs, hc]]
    exact h.profile
  started := fun b' hb' => by
    obtain ⟨k, hk⟩ := List.getElem?_of_mem hb'
    obtain ⟨b, hb, ha⟩ := bot_before hk
    have hmem := List.mem_of_getElem? hb
    rw [ha.botClass]
    exact (h.started b hmem).trans (ha.fresh (hroom b hmem)).1
  block := fun i b' hb' o ho => by
    obtain ⟨b, hb, ha⟩ := bot_before hb'
    have hmem := List.mem_of_getElem? hb
    obtain ⟨hle, hlast, hfresh, -⟩ := ha.fresh (hroom b hmem)
    rw [ha.botClass]
    rw [submittedBy_append] at ho
    rcases List.mem_append.1 ho with ho | ho
    · obtain ⟨hlow, hhigh, hend⟩ := h.block i b hb o ho
      exact ⟨hlow, hhigh.trans hle, hend⟩
    · obtain ⟨hlow, hhigh⟩ := hfresh o ho
      exact ⟨(h.started b hmem).trans_lt hlow, hhigh, hhigh.trans hlast⟩
  distinct := fun i => by
    rw [submittedBy_append]
    cases hb : bots[i]? with
    | none =>
      have hnone : submittedBy i (deliver snapshot draws 0 n bots).2.1 = [] :=
        submittedBy_eq_nil fun x hx he => by
          obtain ⟨b, hb', -⟩ := submission_bot hx
          rw [he, hb] at hb'
          cases hb'
      rw [hnone, List.append_nil]
      exact h.distinct i
    | some b =>
      obtain ⟨b', hb', ha⟩ := bot_after snapshot draws n hb
      obtain ⟨-, -, hfresh, hpair⟩ := ha.fresh (hroom b (List.mem_of_getElem? hb))
      refine List.pairwise_append.2 ⟨h.distinct i, hpair, fun o ho o' ho' he => ?_⟩
      have hold := (h.block i b hb o ho).2.1
      have hnew := (hfresh o' ho').1
      rw [he] at hold
      omega
  alone := fun x hx y hy hclass => by
    rw [classAt_deliver, classAt_deliver] at hclass
    rcases List.mem_append.1 hx with hx | hx <;> rcases List.mem_append.1 hy with hy | hy
    · exact h.alone x hx y hy hclass
    · exact (halone y hy x hx hclass.symm).symm
    · exact halone x hx y hy hclass
    · obtain ⟨b, hb, hs⟩ := submission_bot hx
      obtain ⟨c, hc, hs'⟩ := submission_bot hy
      rw [classAt, classAt, hb, hc, Option.map_some, Option.map_some, Option.some.injEq] at hclass
      have hlt : x.bot < (bots.map fun b => (b.mSymbol, b.botClass)).length := by
        rw [List.length_map]
        exact (List.getElem?_eq_some_iff.1 hb).1
      refine (List.getElem?_inj hlt h.profile).1 ?_
      rw [List.getElem?_map, List.getElem?_map, hb, hc, Option.map_some, Option.map_some, hs, hs',
        hclass]

end Deliver

end BotManager

end Velox
