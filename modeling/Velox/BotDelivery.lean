import Velox.UnseenTrading

namespace Velox
set_option autoImplicit true

open OrderBook

def Carry (symbol : List UInt8) (os : List Order) : Prop := ∀ o ∈ os, o.symbol = .ofString symbol

section Bots

variable {symbol : List UInt8} {snapshot : BookSnapshot} {draws : Draws} {n : Int32}

theorem carry_nil (symbol : List UInt8) : Carry symbol [] := fun o ho => by cases ho

theorem OpenOrders.carry_submit {o : Order} (h : o.symbol = .ofString symbol) (ttl : Int32)
    (b : OpenOrders) : Carry symbol (b.submit o ttl).2 := fun o' ho => by
  rw [List.mem_singleton.1 ho]
  exact h

theorem OpenOrders.carry_place (side : OrderSide) (price : Int64) (symbol : List UInt8)
    (b : OpenOrders) : Carry symbol (b.place side price symbol).2 := by
  rw [OpenOrders.place]
  split
  · exact carry_submit rfl _ _
  · exact carry_nil symbol

theorem OpenOrders.carry_placeChecked (side : OrderSide) (price : Int64) (symbol : List UInt8)
    (b : OpenOrders) : Carry symbol (b.placeChecked side price symbol).2 := by
  rw [OpenOrders.placeChecked]
  split
  · exact carry_submit rfl _ _
  · exact carry_nil symbol

theorem MarketMakerBot.carry (symbol : List UInt8) (snapshot : BookSnapshot) (n : Int32)
    (b : MarketMakerBot) : Carry symbol (b.onSnapshot symbol snapshot n).2.1 := by
  have hplace : ∀ side price (b : MarketMakerBot), Carry symbol (b.place side price symbol).2 :=
    fun side price b o ho => by
      rw [List.mem_singleton.1 ho]
      rfl
  rw [MarketMakerBot.onSnapshot]
  split
  · exact carry_nil symbol
  · dsimp only
    refine List.forall_mem_append.2 ⟨?_, ?_⟩
    · split
      · exact carry_nil symbol
      · exact hplace _ _ _
    · split
      · exact carry_nil symbol
      · exact hplace _ _ _

theorem SpreadBot.carry (snapshot : BookSnapshot) (b : SpreadBot) :
    Carry snapshot.symbol.cstr (b.onSnapshot snapshot).2 := by
  rw [SpreadBot.onSnapshot]
  split
  · exact carry_nil _
  · dsimp only
    split
    · exact OpenOrders.carry_place _ _ _ _
    · split
      · exact OpenOrders.carry_place _ _ _ _
      · exact carry_nil _

theorem RandomWalkBot.carry (snapshot : BookSnapshot) (draws : Draws) (b : RandomWalkBot) :
    Carry snapshot.symbol.cstr (b.onSnapshot snapshot draws).2 := by
  rw [RandomWalkBot.onSnapshot]
  dsimp only
  split
  · exact OpenOrders.carry_placeChecked _ _ _ _
  · split
    · exact OpenOrders.carry_placeChecked _ _ _ _
    · split
      · exact OpenOrders.carry_submit rfl _ _
      · exact carry_nil _

theorem MeanReversionBot.carry (snapshot : BookSnapshot) (b : MeanReversionBot) :
    Carry snapshot.symbol.cstr (b.onSnapshot snapshot).2 := by
  rw [MeanReversionBot.onSnapshot]
  dsimp only
  generalize (if (b.mPrices ++ [snapshot.midPrice]).length > b.mLookback then
    (b.mPrices ++ [snapshot.midPrice]).tail else b.mPrices ++ [snapshot.midPrice]) = prices
  split
  · exact carry_nil _
  · split
    · exact carry_nil _
    · split
      · exact OpenOrders.carry_place _ _ _ _
      · split
        · exact OpenOrders.carry_place _ _ _ _
        · exact carry_nil _

theorem MomentumBot.carry (snapshot : BookSnapshot) (b : MomentumBot) :
    Carry snapshot.symbol.cstr (b.onSnapshot snapshot).2 := by
  rw [MomentumBot.onSnapshot]
  split
  · exact carry_nil _
  · dsimp only
    split
    · exact OpenOrders.carry_place _ _ _ _
    · split
      · exact OpenOrders.carry_place _ _ _ _
      · exact carry_nil _

theorem TradingBot.carry (snapshot : BookSnapshot) (draws : Draws) (n : Int32) {b : TradingBot}
    (h : b.mSymbol = snapshot.symbol.cstr) :
    Carry snapshot.symbol.cstr (b.onSnapshot snapshot draws n).2.1 := by
  obtain ⟨symbol, strategy⟩ := b
  obtain rfl : symbol = snapshot.symbol.cstr := h
  cases strategy with
  | marketMaker m => exact m.carry _ snapshot n
  | spread m => exact m.carry snapshot
  | randomWalk m => exact m.carry snapshot draws
  | meanReversion m => exact m.carry snapshot
  | momentum m => exact m.carry snapshot

theorem TradingBot.Acts.length_le {b b' : TradingBot} {os : List Order} (h : b.Acts b' os) :
    os.length ≤ 2 := by
  obtain ⟨k, hk, -, hn⟩ := h.acts.numbered
  have hwidth : b.botClass.width ≤ 2 := by cases b.botClass <;> decide
  cases hn with
  | none | lost => exact Nat.zero_le 2
  | one => exact Nat.le_succ 1
  | two => exact le_rfl

end Bots

namespace BotManager

variable {snapshot : BookSnapshot} {draws : ℕ → Draws} {bs : List TradingBot} {i : ℕ} {n : Int32}
  {m m' : BotManager} {o : Order} {symbol : List UInt8} {xs : List Submission}

theorem deliver_carries (snapshot : BookSnapshot) (draws : ℕ → Draws) (i : ℕ) (n : Int32)
    (bs : List TradingBot) : ∀ x ∈ (deliver snapshot draws i n bs).2.1,
      x.order.symbol = .ofString snapshot.symbol.cstr := by
  induction bs generalizing i n with
  | nil => intro x hx; cases hx
  | cons b bs ih =>
    intro x hx
    rw [deliver_cons] at hx
    rcases List.mem_append.1 hx with hx | hx
    · obtain ⟨o, ho, rfl⟩ := List.mem_map.1 hx
      rw [notify] at ho
      split_ifs at ho with hb
      · exact TradingBot.carry snapshot (draws i) n hb o ho
      · cases ho
    · exact ih _ _ x hx

theorem deliver_few (snapshot : BookSnapshot) (draws : ℕ → Draws) (i : ℕ) (n : Int32)
    (bs : List TradingBot) : (deliver snapshot draws i n bs).2.1.length ≤
      2 * (bs.map TradingBot.mSymbol).count snapshot.symbol.cstr := by
  induction bs generalizing i n with
  | nil => exact le_rfl
  | cons b bs ih =>
    have hrest := ih (i + 1) (notify snapshot (draws i) n b).2.2
    have hfew := (acts_notify snapshot (draws i) n b).length_le
    rw [deliver_cons, List.length_append, List.length_map, List.map_cons, List.count_cons]
    by_cases hb : b.mSymbol = snapshot.symbol.cstr
    · rw [hb, beq_self_eq_true, if_pos rfl]
      omega
    · have hnone : (notify snapshot (draws i) n b).2.1 = [] := by rw [notify, if_neg hb]
      rw [hnone, List.length_nil]
      omega

theorem count_registered (symbols : List (List UInt8)) (symbol : List UInt8) :
    ((registered symbols).mBots.map TradingBot.mSymbol).count symbol = 5 * symbols.count symbol := by
  rw [Market.registered_eq]
  change ((symbols.flatMap botsFor).map TradingBot.mSymbol).count symbol = _
  induction symbols with
  | nil => rfl
  | cons k symbols ih =>
    have hfive : (botsFor k).map TradingBot.mSymbol = List.replicate 5 k := rfl
    rw [List.flatMap_cons, List.map_append, List.count_append, ih, hfive, List.count_replicate,
      List.count_cons]
    split_ifs <;> omega

theorem waiting_pushOrder_room
    (h : o.symbol.cstr = symbol → (m.waiting symbol).length < 65536) :
    (m.pushOrder o).waiting symbol =
      m.waiting symbol ++ if o.symbol.cstr = symbol then [o] else [] := by
  by_cases hs : o.symbol.cstr = symbol
  · have hroom := h hs
    subst hs
    rw [waiting] at hroom
    simp only [waiting, pushOrder, Function.update_self, Option.getD_some, SPSCQueue.push,
      if_pos hroom, if_true]
  · rw [if_neg hs, List.append_nil]
    simp only [waiting, pushOrder, Function.update_of_ne (Ne.symm hs)]

theorem ordersFor_cons (symbol : List UInt8) (x : Submission) (xs : List Submission) :
    ordersFor symbol (x :: xs) =
      (if x.order.symbol.cstr = symbol then [x.order] else []) ++ ordersFor symbol xs := by
  rw [ordersFor, List.filter_cons]
  simp only [decide_eq_true_eq]
  split <;> rfl

theorem waiting_pushAll_room
    (h : (m.waiting symbol).length + (ordersFor symbol xs).length ≤ 65536) :
    (xs.foldl (fun m x => m.pushOrder x.order) m).waiting symbol =
      m.waiting symbol ++ ordersFor symbol xs := by
  induction xs generalizing m with
  | nil => exact (List.append_nil _).symm
  | cons x xs ih =>
    rw [ordersFor_cons, List.length_append] at h
    rw [List.foldl_cons, ordersFor_cons, ← List.append_assoc]
    have hroom : x.order.symbol.cstr = symbol → (m.waiting symbol).length < 65536 := by
      intro hs
      rw [if_pos hs, List.length_singleton] at h
      omega
    have hpush := waiting_pushOrder_room hroom
    rw [ih, hpush]
    rw [hpush, List.length_append]
    omega

theorem popOrderForSymbol_none (h : m.popOrderForSymbol symbol = none) : m.waiting symbol = [] := by
  rw [popOrderForSymbol, Option.map_eq_none_iff] at h
  rw [waiting]
  cases hq : m.mOrderQueues symbol with
  | none => rfl
  | some queue =>
    rw [hq, Option.bind_some, SPSCQueue.pop] at h
    rw [Option.getD_some]
    split at h
    · assumption
    · cases h

theorem popOrderForSymbol_cancels (h : m.popOrderForSymbol symbol = some (o, m')) :
    m'.mCancelQueue = m.mCancelQueue := by
  obtain ⟨x, -, he⟩ := Option.map_eq_some_iff.1 h
  rw [← (Prod.mk.inj he).2]

theorem popCancel_none (h : m.mCancelQueue.items = []) : m.popCancel = none := by
  rw [popCancel, SPSCQueue.pop, h]
  rfl

theorem cancels_pushAll (xs : List Submission) (m : BotManager) :
    (xs.foldl (fun m x => m.pushOrder x.order) m).mCancelQueue = m.mCancelQueue := by
  induction xs generalizing m with
  | nil => rfl
  | cons x xs ih => exact ih _

end BotManager

theorem OrderBook.symbol_cancelOrder (b : OrderBook) (id : UInt64) (orders : OrderHeap) :
    (b.cancelOrder id orders).2.1.mSymbol = b.mSymbol := by
  have hdepth : ∀ (b : OrderBook) isBid q, (b.subDepth isBid q).mSymbol = b.mSymbol :=
    fun b isBid q => by cases isBid <;> rfl
  have hlevels : ∀ (b : OrderBook) isBid ls, (b.setLevels isBid ls).mSymbol = b.mSymbol :=
    fun b isBid ls => by cases isBid <;> rfl
  rw [OrderBook.cancelOrder]
  cases b.mOrderIndex id with
  | none => rfl
  | some loc =>
    cases hl : b.findLevel loc.price loc.isBid with
    | none =>
      simp only [hl]
      rfl
    | some l =>
      simp only [hl]
      change (if _ then _ else _ : OrderBook).mSymbol = _
      split
      · exact (hlevels _ _ _).trans (hdepth _ _ _)
      · exact hdepth _ _ _

theorem BookSnapshot.cstr_ofBook {b : OrderBook} (depth : ℕ)
    (h : (b.mSymbol.takeWhile (· ≠ 0)).length ≤ 7) :
    (BookSnapshot.ofBook depth b).symbol.cstr = b.mSymbol.takeWhile (· ≠ 0) := by
  have hchars : (BookSnapshot.ofBook depth b).symbol =
      .ofChars (b.mSymbol.takeWhile (· ≠ 0)) := by
    refine Vector.ext fun i hi => ?_
    simp only [BookSnapshot.ofBook, Symbol.ofChars, Vector.getElem_ofFn]
    split
    · rfl
    · rw [List.getD_eq_default _ _ (by omega)]
  rw [hchars, Symbol.cstr_ofChars (by omega) fun c hc => ?_]
  have hc := List.mem_takeWhile_imp hc
  exact of_decide_eq_true hc

namespace SimulatorRun

variable {s t : SimulatorRun} {pool : Option OrderCell × Option OrderCell} {g : SymbolEngine → α}

/-- What neither an order placed nor one cancelled changes. -/
structure Frame (g : SymbolEngine → α) : Prop where
  place : ∀ side x cell (s : SimulatorRun), g (s.place side x cell).engine = g s.engine
  cancel : ∀ id (s : SimulatorRun), g (s.cancel id).engine = g s.engine

theorem Frame.initializeRestingOrders (hg : Frame g) {price : Int64}
    (h : s.initializeRestingOrders price pool = some t) : g t.engine = g s.engine := by
  obtain ⟨bid, -, h⟩ := Option.bind_eq_some_iff.1 h
  obtain ⟨ask, -, rfl⟩ := Option.map_eq_some_iff.1 h
  exact (hg.place ..).trans (hg.place ..)

theorem Frame.update (hg : Frame g) {x y : Int64}
    (h : s.updateRestingOrders x y pool = some t) : g t.engine = g s.engine := by
  have hcancel := fun o : SymbolOrders =>
    (hg.cancel o.askOrderId (s.cancel o.bidOrderId)).trans (hg.cancel o.bidOrderId s)
  rw [updateRestingOrders] at h
  split at h
  · obtain rfl := Option.some.inj h
    rfl
  · dsimp only at h
    split_ifs at h
    · obtain rfl := Option.some.inj h
      rfl
    · split at h
      · obtain rfl := Option.some.inj h
        exact hcancel _
      · obtain ⟨ask, -, rfl⟩ := Option.map_eq_some_iff.1 h
        exact ((hg.place ..).trans (hg.place ..)).trans (hcancel _)

theorem frame_symbol : Frame SymbolEngine.symbol where
  place _ _ _ _ := symbol_place
  cancel id s := by
    rw [SymbolEngine.symbol, SimulatorRun.cancel, OrderBook.symbol_cancelOrder, SymbolEngine.symbol]

theorem frame_engine : Frame SymbolEngine.mEngine where
  place _ _ _ _ := rfl
  cancel _ _ := rfl

end SimulatorRun

namespace SimulatorThread

variable {n : ℕ} {c : SimulatorSettings} {s t : SimulatorThread n} {e : SimulatorEvent n}
  {g : SymbolEngine → α}

theorem Step.frame (h : Step c s e t) (hg : SimulatorRun.Frame g)
    (hshow : ∀ (u : SymbolEngine) bid ask, g (u.setMarketPrice bid ask) = g u) (j : Fin n) :
    g (t.market.engines j) = g (s.market.engines j) := by
  have hengine : ∀ (es : Fin n → SymbolEngine) i (u : SymbolEngine), g u = g (es i) →
      g (Function.update es i u j) = g (es j) := fun es i u hu => by
    by_cases hj : j = i
    · subst hj
      rw [Function.update_self, hu]
    · rw [Function.update_of_ne hj]
  cases h with
  | «open» hi hp h =>
    obtain ⟨m, hm, rfl⟩ := Option.map_eq_some_iff.1 h
    obtain ⟨r, hr, rfl⟩ := Option.map_eq_some_iff.1 hm
    exact hengine _ _ _ (hg.initializeRestingOrders hr)
  | tick hn hi hd hp h =>
    rw [SimulatorThread.tick] at h
    dsimp only at h
    split_ifs at h
    · obtain ⟨m, hm, rfl⟩ := Option.map_eq_some_iff.1 h
      obtain ⟨r, hr, rfl⟩ := Option.map_eq_some_iff.1 hm
      exact (hengine _ _ _ (hg.update hr)).trans (hengine _ _ _ (hshow ..))
    · obtain rfl := Option.some.inj h
      exact hengine _ _ _ (hshow ..)

theorem Step.symbol (h : Step c s e t) (j : Fin n) : t.symbol j = s.symbol j :=
  h.frame SimulatorRun.frame_symbol (fun _ _ _ => rfl) j

theorem Step.engine (h : Step c s e t) (j : Fin n) :
    (t.market.engines j).mEngine = (s.market.engines j).mEngine :=
  h.frame SimulatorRun.frame_engine (fun _ _ _ => rfl) j

end SimulatorThread

/-- The characters fit into the member of an order. -/
def FitsOrder (symbol : List UInt8) : Prop := symbol.length ≤ 7 ∧ ∀ b ∈ symbol, b ≠ 0

theorem FitsOrder.cstr_ofString {symbol : List UInt8} (h : FitsOrder symbol) :
    (Symbol.ofString symbol).cstr = symbol := by
  rw [Symbol.ofString, List.takeWhile_eq_self_iff.2 fun b hb => decide_eq_true (h.2 b hb),
    List.take_of_length_le h.1, Symbol.cstr_ofChars (h.1.trans (by decide)) h.2]

namespace TradingFloor

variable {n : ℕ} {c : SimulatorSettings} {s t : TradingFloor n} {ev : FloorEvent n} {i j : Fin n}
  {symbols : Fin n → List UInt8} {shared : Collaborators} {q : UInt32}
  {ts : List (TradingFloor n × FloorEvent n × TradingFloor n)}
  {us : List (SimulatorThread n × SimulatorEvent n × SimulatorThread n)} {b : OrderBook}

theorem symbol_built (h : FitsOrder (symbols i)) :
    (SymbolEngine.new (symbols i) shared).symbol = symbols i := by
  rw [SymbolEngine.symbol, SymbolEngine.new, OrderBook.new, List.take_of_length_le h.1,
    List.takeWhile_eq_self_iff]
  exact fun b hb => decide_eq_true (h.2 b hb)

theorem ShownIn.symbol (h : ShownIn c symbols shared q us i b) (hs : FitsOrder (symbols i)) :
    b.mSymbol.takeWhile (· ≠ 0) = symbols i := by
  obtain ⟨vs, v, -, hv, rfl⟩ := h
  have hsame : v.symbol i = symbols i := hv.invariant (I := fun u => u.symbol i = symbols i)
    (symbol_built hs) fun _ _ _ hu hst => (hst.symbol i).trans hu
  exact hsame

theorem Step.briefed (hst : Step c s ev t) (h : s.Unseen c symbols shared q us)
    (hs : ∀ i, FitsOrder (symbols i)) {snap : BookSnapshot} {xs : List Submission}
    (he : ev = .snapshot i (some snap) xs) : snap.symbol.cstr = symbols i := by
  obtain ⟨vs, -, -, -, hshown⟩ := hst.keeps_unseen h
  obtain ⟨b, hb, rfl⟩ := hshown i snap xs he
  have hsymbol := hb.symbol (hs i)
  rw [BookSnapshot.cstr_ofBook 5 (hsymbol.symm ▸ (hs i).1), hsymbol]

/-- Every order that was submitted for a symbol has been taken or waits; it waits only while its
thread is in the inner loop. -/
structure Delivered (symbols : Fin n → List UInt8)
    (ts : List (TradingFloor n × FloorEvent n × TradingFloor n)) (s : TradingFloor n) : Prop where
  symbol : ∀ i, (s.engine i).symbol = symbols i
  bots : s.manager.mBots.map TradingBot.mSymbol =
    (BotManager.registered (List.ofFn symbols)).mBots.map TradingBot.mSymbol
  cancels : s.manager.mCancelQueue.items = []
  account : ∀ i, ordersFor (symbols i) s.submitted = taken i ts ++ s.manager.waiting (symbols i)
  idle : ∀ i, s.handing i = false → s.manager.waiting (symbols i) = []

theorem delivered_start (hs : ∀ i, FitsOrder (symbols i)) :
    (start symbols shared q).Delivered symbols [] where
  symbol i := symbol_built (hs i)
  bots := rfl
  cancels := by
    change (BotManager.registered (List.ofFn symbols)).mCancelQueue.items = []
    rw [Market.registered_eq]
  account i := by
    change ordersFor (symbols i) [] = [] ++ (BotManager.registered (List.ofFn symbols)).waiting _
    rw [Market.registered_eq]
    rfl
  idle i _ := by
    change (BotManager.registered (List.ofFn symbols)).waiting _ = []
    rw [Market.registered_eq]
    rfl

theorem taken_snoc (i : Fin n) : taken i (ts ++ [(s, ev, t)]) = taken i ts ++ (ev.taken i).toList := by
  rw [taken, List.filterMap_append]
  exact congrArg (_ ++ ·) (by rw [List.filterMap_cons]; cases ev.taken i <;> rfl)

/-- A snapshot that a thread hands over leads to orders for its symbol only, few enough for an empty
queue. -/
theorem Delivered.onSnapshot (h : s.Delivered symbols ts) (hinj : Function.Injective symbols)
    (hs : ∀ i, FitsOrder (symbols i)) (hi : s.handing i = false) {snap : BookSnapshot}
    (hsnap : snap.symbol.cstr = symbols i) (draws : ℕ → Draws) (j : Fin n) :
    (s.manager.onSnapshot snap draws).2.waiting (symbols j) =
        s.manager.waiting (symbols j) ++
          ordersFor (symbols j) (s.manager.onSnapshot snap draws).1 ∧
      (j ≠ i → ordersFor (symbols j) (s.manager.onSnapshot snap draws).1 = []) := by
  have hcarries := BotManager.deliver_carries snap draws 0 s.manager.updateCount s.manager.mBots
  have hcstr : ∀ x ∈ (s.manager.onSnapshot snap draws).1, x.order.symbol.cstr = symbols i :=
    fun x hx => by rw [hcarries x hx, hsnap, (hs i).cstr_ofString]
  have hother : j ≠ i → ordersFor (symbols j) (s.manager.onSnapshot snap draws).1 = [] := fun hj => by
    rw [ordersFor, List.filter_eq_nil_iff.2, List.map_nil]
    intro x hx
    rw [hcstr x hx, decide_eq_true_eq]
    exact fun he => hj (hinj he.symm)
  refine ⟨?_, hother⟩
  by_cases hj : j = i
  · subst hj
    have hcount : (List.ofFn symbols).count (symbols j) ≤ 1 :=
      List.nodup_iff_count_le_one.1 (List.nodup_ofFn.2 hinj) _
    have hfew := BotManager.deliver_few snap draws 0 s.manager.updateCount s.manager.mBots
    rw [h.bots, hsnap, BotManager.count_registered] at hfew
    refine BotManager.waiting_pushAll_room (m := { s.manager with
      mBots := (BotManager.deliver snap draws 0 s.manager.updateCount s.manager.mBots).1
      updateCount := (BotManager.deliver snap draws 0 s.manager.updateCount s.manager.mBots).2.2 }) ?_
    have hempty : (s.manager.waiting (symbols j)).length = 0 := by rw [h.idle j hi, List.length_nil]
    have hle : (ordersFor (symbols j) (s.manager.onSnapshot snap draws).1).length ≤
        (BotManager.deliver snap draws 0 s.manager.updateCount s.manager.mBots).2.1.length := by
      rw [ordersFor, List.length_map]
      exact List.length_filter_le _ _
    change (s.manager.waiting (symbols j)).length +
      (ordersFor (symbols j) (s.manager.onSnapshot snap draws).1).length ≤ 65536
    omega
  · obtain ⟨os, hos, hwait⟩ := BotManager.waiting_pushAll (s.manager.onSnapshot snap draws).1
      { s.manager with
        mBots := (BotManager.deliver snap draws 0 s.manager.updateCount s.manager.mBots).1
        updateCount := (BotManager.deliver snap draws 0 s.manager.updateCount
          s.manager.mBots).2.2 } (symbols j)
    rw [hother hj] at hos ⊢
    rw [List.sublist_nil.1 hos] at hwait
    exact hwait

theorem Delivered.brief (h : s.Delivered symbols ts) (hinj : Function.Injective symbols)
    (hs : ∀ i, FitsOrder (symbols i)) (hi : s.handing i = false) {handed : Option BookSnapshot}
    (hhanded : ∀ snap, handed = some snap → snap.symbol.cstr = symbols i) (draws : ℕ → Draws) :
    (brief handed draws s.manager).2.mBots.map TradingBot.mSymbol =
        s.manager.mBots.map TradingBot.mSymbol ∧
      (brief handed draws s.manager).2.mCancelQueue = s.manager.mCancelQueue ∧
      ∀ j, (brief handed draws s.manager).2.waiting (symbols j) =
          s.manager.waiting (symbols j) ++
            ordersFor (symbols j) (brief handed draws s.manager).1 ∧
        (j ≠ i → ordersFor (symbols j) (brief handed draws s.manager).1 = []) := by
  cases handed with
  | none => exact ⟨rfl, rfl, fun j => ⟨(List.append_nil _).symm, fun _ => rfl⟩⟩
  | some snap =>
    refine ⟨?_, BotManager.cancels_pushAll .., h.onSnapshot hinj hs hi (hhanded snap rfl) draws⟩
    change (s.manager.onSnapshot snap draws).2.mBots.map _ = _
    rw [BotManager.mBots_onSnapshot]
    exact BotManager.profile_deliver fun b b' hb _ => hb

theorem symbol_putEngine (s : TradingFloor n) (i : Fin n) (e : EngineRun) (j : Fin n) :
    ((s.putEngine i e).engine j).symbol = (s.engine j).symbol := by
  by_cases hj : j = i
  · subst hj
    rw [engine_putEngine_self]
    rfl
  · rw [engine_putEngine_other hj]

theorem Delivered.pop (h : s.Delivered symbols ts) (hinj : Function.Injective symbols)
    (hi : s.handing i = true) {m : BotManager} {o : Order}
    (hpop : s.manager.popOrderForSymbol (s.engine i).symbol = some (o, m))
    (hev : ∀ j, ev.taken j = if i = j then some o else none)
    (hsymbol : ∀ j, (t.engine j).symbol = (s.engine j).symbol) (hm : t.manager = m)
    (hhanding : t.handing = s.handing) (hsub : t.submitted = s.submitted) :
    t.Delivered symbols (ts ++ [(s, ev, t)]) := by
  rw [h.symbol i] at hpop
  obtain ⟨hself, hother, hbots⟩ := BotManager.popOrderForSymbol_spec hpop
  refine ⟨fun j => (hsymbol j).trans (h.symbol j), ?_, ?_, fun j => ?_, fun j hj => ?_⟩
  · rw [hm, hbots, h.bots]
  · rw [hm, BotManager.popOrderForSymbol_cancels hpop, h.cancels]
  · rw [hsub, h.account j, hm, taken_snoc, hev]
    by_cases hij : i = j
    · subst hij
      rw [hself, if_pos rfl, List.append_assoc]
      rfl
    · rw [if_neg hij, hother _ fun he => hij (hinj he.symm), Option.toList_none, List.append_nil]
  · rw [hhanding] at hj
    have hij : i ≠ j := fun he => by
      rw [← he, hi] at hj
      cases hj
    rw [hm, hother _ fun he => hij (hinj he.symm)]
    exact h.idle j hj

theorem Delivered.frame (h : s.Delivered symbols ts) (hev : ∀ j, ev.taken j = none)
    (hsymbol : ∀ j, (t.engine j).symbol = (s.engine j).symbol) (hm : t.manager = s.manager)
    (hhanding : ∀ j, t.handing j = false → s.handing j = true →
      s.manager.waiting (symbols j) = [])
    (hsub : t.submitted = s.submitted) : t.Delivered symbols (ts ++ [(s, ev, t)]) := by
  refine ⟨fun j => (hsymbol j).trans (h.symbol j), ?_, ?_, fun j => ?_, fun j hj => ?_⟩
  · rw [hm, h.bots]
  · rw [hm, h.cancels]
  · rw [hsub, h.account j, hm, taken_snoc, hev, Option.toList_none, List.append_nil]
  · rw [hm]
    cases hold : s.handing j with
    | false => exact h.idle j hold
    | true => exact hhanding j hj hold

theorem Step.delivered (hst : Step c s ev t) (hinj : Function.Injective symbols)
    (hs : ∀ i, FitsOrder (symbols i)) (hu : s.Unseen c symbols shared q us)
    (h : s.Delivered symbols ts) :
    (∀ id, ev ≠ .cancel id) ∧ t.Delivered symbols (ts ++ [(s, ev, t)]) := by
  have hst' := hst
  cases hst with
  | simulator hsim =>
    exact ⟨nofun, h.frame (fun _ => rfl) (fun j => hsim.symbol j) rfl
      (fun j hj hj' => by rw [show s.handing j = false from hj] at hj'; cases hj') rfl⟩
  | @snapshot i loop draws hi hiter =>
    have hhanded : ∀ snap, loop.handed = some snap → snap.symbol.cstr = symbols i :=
      fun snap he => hst'.briefed hu hs (by rw [he])
    obtain ⟨hbots, hcancels, hwait⟩ := h.brief hinj hs hi hhanded draws
    refine ⟨nofun, h.symbol, hbots.trans h.bots, hcancels ▸ h.cancels, fun j => ?_, fun j hj => ?_⟩
    · rw [Market.ordersFor_append, h.account j, taken_snoc, (hwait j).1, List.append_assoc]
      exact congrArg (· ++ _) (List.append_nil _).symm
    · have hne : j ≠ i := fun he => by
        rw [he] at hj
        change Function.update s.handing i true i = false at hj
        rw [Function.update_self] at hj
        cases hj
      change Function.update s.handing i true j = false at hj
      rw [Function.update_of_ne hne] at hj
      rw [(hwait j).1, h.idle j hj, (hwait j).2 hne]
      rfl
  | @hand i m o cell hi hpop hp =>
    exact ⟨nofun, h.pop hinj hi hpop (fun _ => rfl) (symbol_putEngine s i _) rfl rfl rfl⟩
  | @drop i m o hi hpop hp =>
    exact ⟨nofun, h.pop hinj hi hpop (fun _ => rfl) (fun _ => rfl) rfl rfl rfl⟩
  | @sweep i hi hpop =>
    refine ⟨nofun, h.frame (fun _ => rfl) (symbol_putEngine s i _) rfl (fun j hj hj' => ?_) rfl⟩
    by_cases hji : j = i
    · rw [hji, ← h.symbol i]
      exact BotManager.popOrderForSymbol_none hpop
    · change Function.update s.handing i false j = false at hj
      rw [Function.update_of_ne hji, hj'] at hj
      cases hj
  | process hp =>
    exact ⟨nofun, h.frame (fun _ => rfl) (symbol_putEngine s _ _) rfl
      (fun j hj hj' => by rw [show s.handing j = false from hj] at hj'; cases hj') rfl⟩
  | cancel hpop =>
    rw [BotManager.popCancel_none h.cancels] at hpop
    cases hpop

theorem delivered_of_runs (hinj : Function.Injective symbols) (hs : ∀ i, FitsOrder (symbols i))
    (h : Runs (Step c) (start symbols shared q) ts s) :
    s.Delivered symbols ts ∧ ∀ x ∈ ts, ∀ id, x.2.1 ≠ .cancel id := by
  induction h with
  | nil => exact ⟨delivered_start hs, fun x hx => by cases hx⟩
  | snoc h hst ih =>
    obtain ⟨us, -, hunseen, -⟩ := unseen_of_runs h
    obtain ⟨hno, hdelivered⟩ := hst.delivered hinj hs hunseen ih.1
    refine ⟨hdelivered, List.forall_mem_append.2 ⟨ih.2, List.forall_mem_singleton.2 hno⟩⟩

/-- Every order that the bots submit for a symbol is taken by the thread of that symbol, once and in
the order of the submissions: in any order of the threads' moves those not yet taken are the ones that
wait, and none waits when the thread goes on to its next snapshot. No cancel request is ever taken. -/
theorem orders_delivered (hinj : Function.Injective symbols) (hs : ∀ i, FitsOrder (symbols i))
    (h : Runs (Step c) (start symbols shared q) ts s) :
    (∀ i, ordersFor (symbols i) s.submitted = taken i ts ++ s.manager.waiting (symbols i) ∧
      (s.handing i = false → s.manager.waiting (symbols i) = [])) ∧
    ∀ x ∈ ts, ∀ id, x.2.1 ≠ .cancel id := by
  obtain ⟨hdelivered, hno⟩ := delivered_of_runs hinj hs h
  exact ⟨fun i => ⟨hdelivered.account i, hdelivered.idle i⟩, hno⟩

theorem letters_injective : Function.Injective letters := by decide +kernel

theorem fitsOrder_letters : ∀ i, FitsOrder (letters i) := by
  unfold FitsOrder
  decide +kernel

/-- Three orders for two symbols are taken in the order of their submission. -/
theorem orders_delivered_sample : ∃ ts, ∃ s : TradingFloor 10,
    Runs (Step highOpening) (start letters {} 500) ts s ∧
    (ordersFor (letters 0) s.submitted).map Order.orderId = [20001] ∧
    (ordersFor (letters 9) s.submitted).map Order.orderId = [50001, 20001] ∧
    ∀ i ∈ [0, 9], ordersFor (letters i) s.submitted = taken i ts := by
  obtain ⟨ts, s, h, hok⟩ := exists_sample_run {}
    (fun _ s => decide ((ordersFor (letters 0) s.submitted).map Order.orderId = [20001] ∧
      (ordersFor (letters 9) s.submitted).map Order.orderId = [50001, 20001] ∧
      ∀ i ∈ [0, 9], s.handing i = false)) (by decide +kernel)
  obtain ⟨hfirst, hlast, hidle⟩ := of_decide_eq_true hok
  refine ⟨ts, s, h, hfirst, hlast, fun i hi => ?_⟩
  obtain ⟨haccount, hnone⟩ := (orders_delivered letters_injective fitsOrder_letters h).1 i
  rw [haccount, hnone (hidle i hi), List.append_nil]

end TradingFloor

end Velox
