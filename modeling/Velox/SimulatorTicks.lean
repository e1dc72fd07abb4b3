import Velox.SimulatorThread
import Velox.PositionArithmetic

namespace Velox
set_option autoImplicit true

open OrderBook PriceLevel

section Prices

variable {price delta spread x y : Int64}

theorem randomWalk_range (price delta : Int64) :
    100 ≤ (randomWalk price delta).toInt ∧ (randomWalk price delta).toInt ≤ 1000000 := by
  have hlow : (100 : Int64).toInt = 100 := rfl
  have hhigh : (1000000 : Int64).toInt = 1000000 := rfl
  simp only [randomWalk, gt_iff_lt, Int64.lt_iff_toInt_lt, hlow, hhigh]
  split_ifs <;> omega

theorem bidAsk_toInt (hp : 0 ≤ price.toInt ∧ price.toInt ≤ 1000000) (hs : 0 ≤ spread.toInt) :
    (bidAsk price spread).1.toInt = max 1 (price.toInt - spread.toInt / 2) ∧
    (bidAsk price spread).2.toInt = min 999999 (price.toInt + spread.toInt / 2) := by
  have hlt := spread.toInt_lt
  have hone : (1 : Int64).toInt = 1 := rfl
  have htop : (999999 : Int64).toInt = 999999 := rfl
  have hhalf : (spread / 2).toInt = spread.toInt / 2 := by
    rw [Int64.toInt_div_of_ne_right spread 2 (by decide), show (2 : Int64).toInt = 2 from rfl,
      Int.tdiv_eq_ediv_of_nonneg hs]
  have hbid : (price - spread / 2).toInt = price.toInt - spread.toInt / 2 := by
    rw [toInt_sub_of_fits (by rw [hhalf, FitsInt64]; omega), hhalf]
  have hask : (price + spread / 2).toInt = price.toInt + spread.toInt / 2 := by
    rw [toInt_add_of_fits (by rw [hhalf, FitsInt64]; omega), hhalf]
  simp only [bidAsk, gt_iff_lt, Int64.lt_iff_toInt_lt, hone, htop, hbid, hask]
  constructor
  · split_ifs <;> omega
  · split_ifs <;> omega

/-- Four units of spread keep the quotes apart, at the upper end of the prices too. -/
theorem bidAsk_apart (hp : 100 ≤ price.toInt ∧ price.toInt ≤ 1000000) (hs : 4 ≤ spread.toInt) :
    1 ≤ (bidAsk price spread).1.toInt ∧
      (bidAsk price spread).1.toInt < (bidAsk price spread).2.toInt ∧
      (bidAsk price spread).2.toInt ≤ 999999 := by
  obtain ⟨hbid, hask⟩ := bidAsk_toInt ⟨by omega, hp.2⟩ (by omega : 0 ≤ spread.toInt)
  omega

theorem abs_toInt (h : x.toInt ≠ -2 ^ 63) : x.abs.toInt = |x.toInt| := by
  have hmin : x.toBitVec ≠ BitVec.intMin 64 := fun he => h (by
    rw [← Int64.toInt_toBitVec, he]
    rfl)
  rw [← Int64.toInt_toBitVec, Int64.toBitVec_abs, BitVec.toInt_abs_eq_natAbs, if_neg hmin,
    Int64.toInt_toBitVec, Int.natCast_natAbs]

theorem abs_gt_ten (hx : 0 ≤ x.toInt ∧ x.toInt ≤ 1000000) (hy : 0 ≤ y.toInt ∧ y.toInt ≤ 1000000) :
    (x - y).abs > 10 ↔ 10 < |x.toInt - y.toInt| := by
  have hsub : (x - y).toInt = x.toInt - y.toInt := toInt_sub_of_fits (by rw [FitsInt64]; omega)
  have habs : (x - y).abs.toInt = |x.toInt - y.toInt| := by
    rw [abs_toInt (by rw [hsub]; omega), hsub]
  rw [gt_iff_lt, Int64.lt_iff_toInt_lt, habs]
  rfl

end Prices

namespace OrderBook

variable {b : OrderBook} {orders : OrderHeap} {id : UInt64} {p : OrderPtr}

/-- Cancelling a known order overwrites the best prices. -/
theorem cancelOrder_updateBestPrices (h : (b.updateBestPrices.cancelOrder id orders).1 = true) :
    b.updateBestPrices.cancelOrder id orders = b.cancelOrder id orders := by
  rw [cancelOrder] at h ⊢
  rw [cancelOrder]
  simp only [show b.updateBestPrices.mOrderIndex = b.mOrderIndex from rfl] at h ⊢
  cases hi : b.mOrderIndex id with
  | none =>
    rw [hi] at h
    cases h
  | some loc =>
    simp only [hi, show b.updateBestPrices.findLevel = b.findLevel from rfl] at h ⊢
    cases hl : b.findLevel loc.price loc.isBid with
    | none =>
      simp only [hl] at h
      cases h
    | some l =>
      simp only [show b.updateBestPrices.level l = b.level l from rfl]
      split <;> (cases loc.isBid <;> rfl)

end OrderBook

/-- The run, with the best prices of the book recomputed. -/
def SimulatorRun.synced (r : SimulatorRun) : SimulatorRun :=
  { r with engine := { r.engine with mBook := r.engine.mBook.updateBestPrices } }

def Simulation.synced {n : ℕ} (s : Simulation n) : Simulation n :=
  { s with engines := fun i => (s.run i).synced.engine }

namespace SimulatorRun

variable {r t : SimulatorRun} {q : UInt32} {x y : Int64} {pool : Option OrderCell × Option OrderCell}
  {o : SymbolOrders} {a : ActiveOrders} {last : Option (Int64 × Int64)}

theorem cancel_synced (id : UInt64)
    (h : (r.synced.engine.mBook.cancelOrder id r.sim.orders).1 = true) :
    r.synced.cancel id = r.cancel id := by
  have he : r.synced.engine.mBook.cancelOrder id r.sim.orders = _ := cancelOrder_updateBestPrices h
  rw [cancel, show r.synced.sim = r.sim from rfl, he]
  rfl

theorem update_synced (ho : r.sim.mSymbolOrders r.engine.symbol = some o)
    (hq : Quoted r.synced.engine.mBook r.sim.orders o a q)
    (hne : ¬ (o.currentBidPrice = x ∧ o.currentAskPrice = y)) :
    r.updateRestingOrders x y pool = r.synced.updateRestingOrders x y pool := by
  obtain ⟨b₁, b₂, he₁, -⟩ := hq.cancelled
  have hcancel := cancel_synced (r := r) o.bidOrderId (by rw [he₁])
  have ho' : r.synced.sim.mSymbolOrders r.synced.engine.symbol = some o := ho
  simp only [updateRestingOrders, ho, ho', if_neg hne, hcancel]

end SimulatorRun

namespace Simulation

variable {n : ℕ} {s t : Simulation n} {names : Fin n → List UInt8} {q : UInt32} {i j : Fin n}
  {x y : Int64} {pool : Option OrderCell × Option OrderCell}

theorem synced_setMarketPrice (s : Simulation n) (i : Fin n) (x y : Int64) :
    (s.setMarketPrice i x y).synced = s.synced := by
  have hbook : ∀ j, ((s.setMarketPrice i x y).run j).synced.engine = (s.run j).synced.engine := by
    intro j
    by_cases hj : j = i
    · subst hj
      have he : (s.setMarketPrice j x y).engines j = (s.engines j).setMarketPrice x y :=
        Function.update_self ..
      rw [SimulatorRun.synced, run, he]
      rfl
    · have he : (s.setMarketPrice i x y).engines j = s.engines j := Function.update_of_ne hj ..
      rw [SimulatorRun.synced, run, he]
      rfl
  rw [synced, synced, funext hbook]
  rfl

theorem run_setMarketPrice (s : Simulation n) (i : Fin n) (x y : Int64) :
    (s.setMarketPrice i x y).run i = ⟨(s.engines i).setMarketPrice x y, s.sim⟩ := by
  have he : (s.setMarketPrice i x y).engines i = (s.engines i).setMarketPrice x y :=
    Function.update_self ..
  rw [run, he]
  rfl

theorem put_same (s : Simulation n) (i : Fin n) (prices : Option (Int64 × Int64)) :
    s.put i (s.run i) prices = { s with quoted := Function.update s.quoted i prices } := by
  simp only [put, run, Function.update_eq_self]

theorem synced_put {r : SimulatorRun} (hr : r.synced = r) (prices : Option (Int64 × Int64)) :
    (s.put i r prices).synced = s.synced.put i r prices := by
  have hbook : ∀ j, ((s.put i r prices).run j).synced.engine =
      Function.update s.synced.engines i r.engine j := by
    intro j
    by_cases hj : j = i
    · subst hj
      rw [run_put_self, hr, Function.update_self]
    · have he : (s.put i r prices).engines j = s.engines j := Function.update_of_ne hj ..
      rw [Function.update_of_ne hj, SimulatorRun.synced, run, he]
      rfl
  rw [synced, funext hbook]
  rfl

/-- A tick that moves the resting orders does what the update alone would do, and shows their
prices. -/
theorem Sound.update_shown (h : s.synced.Sound names q) (hn : 2 * n + 2 ≤ orderPoolSize)
    (hq : q ≠ 0) {last : Int64 × Int64} (hlast : s.quoted i = some last) (hx : x < y)
    (hp : s.sim.MayAnswer pool) :
    ∃ t, (s.setMarketPrice i x y).perform pool (.update i x y) = some t ∧
      s.synced.perform pool (.update i x y) = some t.synced ∧
      (∀ side, (t.book i).bestPrice side = if side then x else y) ∧
      (∀ j, j ≠ i → t.engines j = s.engines j) ∧
      t.quoted = Function.update s.quoted i (some (x, y)) := by
  obtain ⟨bid, ask, rfl, hbid, hask, hne⟩ := h.cells hn hp
  have hset := h.settled i
  rw [show s.synced.quoted i = some last from hlast] at hset
  have hrun : ((s.setMarketPrice i x y).run i).synced = s.synced.run i := by
    rw [run_setMarketPrice]
    rfl
  have hother : ∀ (r : SimulatorRun) j, j ≠ i →
      ((s.setMarketPrice i x y).put i r (some (x, y))).engines j = s.engines j := fun r j hj => by
    rw [engines_put_other hj]
    exact Function.update_of_ne hj _ _
  cases hset with
  | @quoted o a ho ha hquoted =>
    have ho' : ((s.setMarketPrice i x y).run i).sim.mSymbolOrders
        ((s.setMarketPrice i x y).run i).engine.symbol = some o := by
      rw [run_setMarketPrice]
      exact ho
    by_cases hsame : o.currentBidPrice = x ∧ o.currentAskPrice = y
    · refine ⟨(s.setMarketPrice i x y).put i ((s.setMarketPrice i x y).run i) (some (x, y)),
        ?_, ?_, fun side => ?_, hother _, rfl⟩
      · rw [Simulation.perform, SimulatorRun.updateRestingOrders, ho']
        simp only [if_pos hsame, Option.map_some]
        rw [show (s.setMarketPrice i x y).quoted i = some _ from hlast]
        rfl
      · rw [Simulation.perform, SimulatorRun.updateRestingOrders,
          show (s.synced.run i).sim.mSymbolOrders (s.synced.run i).engine.symbol = some o from ho]
        simp only [if_pos hsame, Option.map_some]
        rw [show s.synced.quoted i = some _ from hlast, put_same, put_same, Option.map_some,
          ← synced_setMarketPrice s i x y]
        rfl
      · rw [put_same, book, show (s.setMarketPrice i x y).engines i = _ from
          congrArg SimulatorRun.engine (run_setMarketPrice s i x y)]
        cases side <;> rfl
    · obtain ⟨r, he, hr⟩ := SimulatorRun.update_requotes ho ha hquoted hsame
        (Int64.ne_of_lt hx) hne h.resting hq
      have hr' := hr.quoted
      obtain ⟨o', ho₁, ho₂, hmeta, hq'⟩ := hr'
      have hsync : r.synced = r := by
        rw [SimulatorRun.synced, hq'.best]
      have hu : ((s.setMarketPrice i x y).run i).updateRestingOrders x y (some bid, some ask) =
          some r := by
        rw [SimulatorRun.update_synced ho' (by rw [hrun, run_setMarketPrice]; exact hquoted) hsame,
          hrun, he]
      refine ⟨(s.setMarketPrice i x y).put i r (some (x, y)), ?_, ?_, fun side => ?_, hother _, rfl⟩
      · rw [Simulation.perform, hu, show (s.setMarketPrice i x y).quoted i = some _ from hlast]
        rfl
      · rw [Simulation.perform, he, synced_put hsync, synced_setMarketPrice,
          show s.synced.quoted i = some _ from hlast]
        rfl
      · have hbook : ((s.setMarketPrice i x y).put i r (some (x, y))).book i = r.engine.mBook := by
          rw [book, show ((s.setMarketPrice i x y).put i r (some (x, y))).engines i = r.engine from
            Function.update_self ..]
        rw [hbook]
        cases side with
        | true => exact (hq'.bid.best hq'.best).trans ho₁
        | false => exact (hq'.ask.best hq'.best).trans ho₂

theorem Sound.init_shown (h : s.synced.Sound names q) (hnames : Function.Injective names)
    (hn : 2 * n + 2 ≤ orderPoolSize) (hq : q ≠ 0) (hi : s.quoted i = none)
    (hrun : (s.run i).synced = s.run i) (price : Int64) (hp : s.sim.MayAnswer pool) :
    ∃ t, s.perform pool (.init i price) = some t ∧ t.synced.Sound names q ∧
      (t.run i).synced = t.run i ∧ (∀ j, j ≠ i → t.engines j = s.engines j) ∧
      t.quoted = Function.update s.quoted i (some (price - 10, price + 10)) := by
  obtain ⟨bid, ask, rfl, hbid, hask, hne⟩ := h.cells hn hp
  have hrun' : s.synced.run i = s.run i := hrun
  have hset := h.settled i
  rw [show s.synced.quoted i = none from hi, hrun'] at hset
  cases hset with
  | vacant ho ha hv =>
    obtain ⟨r, he, hr⟩ := SimulatorRun.initialize_requotes hv hne h.resting hq price
    obtain ⟨o, -, -, -, hquoted⟩ := hr.quoted
    have hsync : r.synced = r := by
      rw [SimulatorRun.synced, hquoted.best]
    refine ⟨s.put i r (some (price - 10, price + 10)), by rw [Simulation.perform, he]; rfl, ?_, ?_,
      fun j hj => engines_put_other hj _, rfl⟩
    · rw [synced_put hsync]
      refine h.put hnames (by rw [hrun']; exact hr) fun p hp => ?_
      rcases List.mem_cons.1 hp with rfl | hp
      · exact hask
      · rw [List.mem_singleton.1 hp]
        exact hbid
    · rw [run_put_self]
      exact hsync

theorem Sound.exists_answer (h : s.Sound names q) (hn : 2 * n + 2 ≤ orderPoolSize) :
    ∃ pool, s.sim.MayAnswer pool := by
  have hlength := s.length_heldCells names
  obtain ⟨p, hp, hfree⟩ : ∃ p < orderPoolSize, p ∉ s.heldCells names := exists_free (by omega)
  obtain ⟨r, hr, hfree'⟩ : ∃ r < orderPoolSize, r ∉ p :: s.heldCells names :=
    exists_free (by rw [List.length_cons]; omega)
  refine ⟨(some (p, {}), some (r, {})), ⟨hp, fun hh => hfree (h.mem_heldCells hh)⟩, hr, ?_⟩
  rintro (hh | hh)
  · exact hfree' (List.mem_cons_of_mem p (h.mem_heldCells hh))
  · exact hfree' (List.mem_cons.2 (.inl (Option.some.inj hh).symm))

end Simulation

namespace SimulatorThread

variable {n : ℕ} {c : SimulatorSettings} {s t : SimulatorThread n} {names : Fin n → List UInt8}
  {q : UInt32} {i j : Fin n} {e : SimulatorEvent n} {delta spread price : Int64}
  {shown : Int64 × Int64} {pool : Option OrderCell × Option OrderCell}

/-- The prices that an engine shows are drawn around its current price, and its resting orders stand
where they were drawn around a price at most ten away. -/
structure Tracked (c : SimulatorSettings) (s : SimulatorThread n) (i : Fin n) (symbol : List UInt8)
    (shown : Int64 × Int64) : Prop where
  drawn : ∃ spread, c.MayDraw spread ∧ shown = bidAsk (s.currentPrices symbol) spread
  resting : ∃ spread, c.MayDraw spread ∧
    s.market.quoted i = some (bidAsk (s.lastUpdatePrice symbol) spread)
  current : 100 ≤ (s.currentPrices symbol).toInt ∧ (s.currentPrices symbol).toInt ≤ 1000000
  last : 100 ≤ (s.lastUpdatePrice symbol).toInt ∧ (s.lastUpdatePrice symbol).toInt ≤ 1000000
  near : |(s.currentPrices symbol).toInt - (s.lastUpdatePrice symbol).toInt| ≤ 10
  best : ∀ side, (s.market.book i).bestPrice side = if side then shown.1 else shown.2

theorem Tracked.of_prices {symbol : List UInt8} {last : Int64}
    (hc : s.currentPrices symbol = price) (hl : s.lastUpdatePrice symbol = last)
    (hd : c.MayDraw spread)
    (hr : ∃ spread, c.MayDraw spread ∧ s.market.quoted i = some (bidAsk last spread))
    (hprice : 100 ≤ price.toInt ∧ price.toInt ≤ 1000000)
    (hlast : 100 ≤ last.toInt ∧ last.toInt ≤ 1000000) (hnear : |price.toInt - last.toInt| ≤ 10)
    (hbest : ∀ side, (s.market.book i).bestPrice side =
      if side then (bidAsk price spread).1 else (bidAsk price spread).2) :
    Tracked c s i symbol (bidAsk price spread) := by
  subst hc hl
  exact ⟨⟨spread, hd, rfl⟩, hr, hprice, hlast, hnear, hbest⟩

theorem Tracked.frame {symbol : List UInt8} (h : Tracked c s i symbol shown)
    (hc : t.currentPrices symbol = s.currentPrices symbol)
    (hl : t.lastUpdatePrice symbol = s.lastUpdatePrice symbol)
    (hq : t.market.quoted i = s.market.quoted i)
    (he : t.market.engines i = s.market.engines i) : Tracked c t i symbol shown where
  drawn := hc ▸ h.drawn
  resting := by
    rw [hl, hq]
    exact h.resting
  current := hc ▸ h.current
  last := hl ▸ h.last
  near := by
    rw [hc, hl]
    exact h.near
  best := fun side => by
    rw [Simulation.book, he]
    exact h.best side

/-- The invariant of the thread. -/
structure Sane (c : SimulatorSettings) (names : Fin n → List UInt8) (q : UInt32)
    (s : SimulatorThread n) : Prop where
  sound : s.market.synced.Sound names q
  unopened : ∀ i : Fin n, s.turn ≤ i.val → s.market.quoted i = none
  opened : ∀ i : Fin n, i.val < s.turn → s.market.quoted i ≠ none
  untouched : ∀ i, s.shown i = none →
    (s.market.run i).synced = s.market.run i ∧ s.lastUpdatePrice (names i) = 0
  tracked : ∀ i shown, s.shown i = some shown → Tracked c s i (names i) shown

theorem sane_start (c : SimulatorSettings) (symbols : Fin n → List UInt8)
    (shared : Fin n → Collaborators) (q : UInt32) :
    (start symbols shared q).Sane c (Simulation.startSymbols symbols shared) q where
  sound := Simulation.sound_start symbols shared q
  unopened := fun _ _ => rfl
  opened := fun _ hi => absurd hi (Nat.not_lt_zero _)
  untouched := fun _ _ => ⟨rfl, rfl⟩
  tracked := fun _ _ h => by cases h

theorem tick_moved {m : Simulation n} (hp : randomWalk (s.currentPrices (s.symbol i)) delta = price)
    (hmove : (price - s.lastUpdatePrice (s.symbol i)).abs > 10)
    (hm : (s.market.setMarketPrice i (bidAsk price spread).1 (bidAsk price spread).2).perform pool
      (.update i (bidAsk price spread).1 (bidAsk price spread).2) = some m) :
    s.tick i delta spread pool = some {
      market := m
      turn := s.turn + 1
      currentPrices := Function.update s.currentPrices (s.symbol i) price
      lastUpdatePrice := Function.update s.lastUpdatePrice (s.symbol i) price
      shown := Function.update s.shown i (some (bidAsk price spread)) } := by
  subst hp
  simp only [SimulatorThread.tick, if_pos hmove, hm, Option.map_some]

theorem tick_still (hp : randomWalk (s.currentPrices (s.symbol i)) delta = price)
    (hmove : ¬ (price - s.lastUpdatePrice (s.symbol i)).abs > 10) :
    s.tick i delta spread pool = some { s with
      market := s.market.setMarketPrice i (bidAsk price spread).1 (bidAsk price spread).2
      turn := s.turn + 1
      currentPrices := Function.update s.currentPrices (s.symbol i) price
      shown := Function.update s.shown i (some (bidAsk price spread)) } := by
  subst hp
  simp only [SimulatorThread.tick, if_neg hmove]

theorem shown_tick (h : s.tick i delta spread pool = some t) : t.shown = Function.update s.shown i
    (some (bidAsk (randomWalk (s.currentPrices (s.symbol i)) delta) spread)) := by
  simp only [SimulatorThread.tick] at h
  split at h
  · obtain ⟨m, -, rfl⟩ := Option.map_eq_some_iff.1 h
    rfl
  · obtain rfl := Option.some.inj h
    rfl

def showing (shown : Fin n → Option (Int64 × Int64)) : SimulatorEvent n → Fin n → Option (Int64 × Int64)
  | .opened _ => shown
  | .ticked i bid ask => Function.update shown i (some (bid, ask))

theorem Step.shows (hst : Step c s e t) : t.shown = showing s.shown e := by
  cases hst with
  | «open» hi hp ht =>
    obtain ⟨m, -, rfl⟩ := Option.map_eq_some_iff.1 ht
    rfl
  | tick hturn hi hd hp ht => exact shown_tick ht

section Step

variable (h : s.Sane c names q) (hnames : Function.Injective names)
  (hn : 2 * n + 2 ≤ orderPoolSize) (hq : q ≠ 0)
include h

theorem Sane.symbol_eq (i : Fin n) : s.symbol i = names i := h.sound.symbol i

include hnames hn hq

theorem Sane.open (hi : i.val = s.turn) (hp : s.market.sim.MayAnswer pool) :
    ∃ t, s.open c i pool = some t ∧ t.Sane c names q := by
  have hnone := h.unopened i hi.ge
  have hshown : s.shown i = none := by
    cases hs : s.shown i with
    | none => rfl
    | some shown =>
      obtain ⟨_, -, hquoted⟩ := (h.tracked i shown hs).resting
      rw [hnone] at hquoted
      cases hquoted
  obtain ⟨m, hm, hsound, hsync, hother, hquoted⟩ := h.sound.init_shown hnames hn hq hnone
    (h.untouched i hshown).1 (c.getInitialPrice (s.symbol i)) hp
  have hname := h.symbol_eq i
  refine ⟨_, by rw [SimulatorThread.open, hm]; rfl, hsound, fun j hj => ?_, fun j hj => ?_,
    fun j hj => ?_, fun j shown hj => ?_⟩
  · have hj : s.turn + 1 ≤ j.val := hj
    have hji : j ≠ i := fun he => by
      rw [he] at hj
      omega
    simp only [hquoted, Function.update_of_ne hji]
    exact h.unopened j (by omega)
  · have hj : j.val < s.turn + 1 := hj
    simp only [hquoted]
    by_cases hji : j = i
    · rw [hji, Function.update_self]
      exact nofun
    · rw [Function.update_of_ne hji]
      refine h.opened j ?_
      have := Fin.val_ne_of_ne hji
      omega
  · refine ⟨?_, (h.untouched j hj).2⟩
    by_cases hji : j = i
    · rw [hji]
      exact hsync
    · have hold := (h.untouched j hj).1
      simp only [SimulatorRun.synced, Simulation.run, hother j hji] at hold ⊢
      exact SimulatorRun.mk.injEq .. ▸ ⟨congrArg SimulatorRun.engine hold, rfl⟩
  · have hji : j ≠ i := fun he => by
      rw [he] at hj
      cases hshown.symm.trans hj
    have hne : names j ≠ s.symbol i := fun he => hji (hnames (he.trans hname))
    exact (h.tracked j shown hj).frame (Function.update_of_ne hne _ _) rfl
      (by simp only [hquoted, Function.update_of_ne hji]) (hother j hji)

omit hnames hn hq in
theorem Sane.last_range (i : Fin n) : 0 ≤ (s.lastUpdatePrice (names i)).toInt ∧
    (s.lastUpdatePrice (names i)).toInt ≤ 1000000 := by
  cases hs : s.shown i with
  | none =>
    rw [(h.untouched i hs).2]
    decide
  | some shown =>
    have hlast := (h.tracked i shown hs).last
    omega

omit hn hq in
theorem Sane.ticked {price : Int64} (hturn : n ≤ s.turn)
    (hengines : ∀ j, j ≠ i → t.market.engines j = s.market.engines j)
    (hquoted : ∀ j, j ≠ i → t.market.quoted j = s.market.quoted j)
    (hcurrent : t.currentPrices = Function.update s.currentPrices (s.symbol i) price)
    (hlast : ∀ k, k ≠ s.symbol i → t.lastUpdatePrice k = s.lastUpdatePrice k)
    (hshown : t.shown = Function.update s.shown i (some shown)) (hnext : t.turn = s.turn + 1)
    (htracked : Tracked c t i (names i) shown) (hsound : t.market.synced.Sound names q) :
    t.Sane c names q := by
  have hne : ∀ {j}, j ≠ i → names j ≠ s.symbol i := fun hji he =>
    hji (hnames (he.trans (h.symbol_eq i)))
  refine ⟨hsound, fun j hj => ?_, fun j _ => ?_, fun j hj => ?_, fun j shown' hj => ?_⟩
  · have := j.isLt
    omega
  · by_cases hji : j = i
    · obtain ⟨_, -, hrest⟩ := htracked.resting
      rw [hji, hrest]
      exact nofun
    · rw [hquoted j hji]
      exact h.opened j (j.isLt.trans_le hturn)
  · have hji : j ≠ i := fun he => by
      rw [he, hshown, Function.update_self] at hj
      cases hj
    rw [hshown, Function.update_of_ne hji] at hj
    obtain ⟨hsync, hzero⟩ := h.untouched j hj
    refine ⟨?_, (hlast _ (hne hji)).trans hzero⟩
    simp only [SimulatorRun.synced, Simulation.run, hengines j hji] at hsync ⊢
    exact SimulatorRun.mk.injEq .. ▸ ⟨congrArg SimulatorRun.engine hsync, rfl⟩
  · by_cases hji : j = i
    · rw [hji, hshown, Function.update_self, Option.some.injEq] at hj
      rw [hji, ← hj]
      exact htracked
    · rw [hshown, Function.update_of_ne hji] at hj
      exact (h.tracked j shown' hj).frame
        (by rw [hcurrent, Function.update_of_ne (hne hji)]) (hlast _ (hne hji))
        (hquoted j hji) (hengines j hji)

theorem Sane.tick (hmin : 4 ≤ c.mMinSpread.toInt) (hturn : n ≤ s.turn) (hd : c.MayDraw spread)
    (hp : s.market.sim.MayAnswer pool) (i : Fin n) (delta : Int64) :
    ∃ t, s.tick i delta spread pool = some t ∧ t.Sane c names q := by
  have hname := h.symbol_eq i
  have hspread : 4 ≤ spread.toInt := hmin.trans (Int64.le_iff_toInt_le.1 hd.1)
  have hrange := h.last_range i
  rw [← hname] at hrange
  obtain ⟨last, hlast⟩ := Option.ne_none_iff_exists'.1 (h.opened i (i.isLt.trans_le hturn))
  have hprice := randomWalk_range (s.currentPrices (s.symbol i)) delta
  have hapart := bidAsk_apart hprice hspread
  have hmoved := abs_gt_ten (y := s.lastUpdatePrice (s.symbol i)) ⟨by omega, hprice.2⟩ hrange
  generalize hp₀ : randomWalk (s.currentPrices (s.symbol i)) delta = price at hprice hapart hmoved
  by_cases hmove : (price - s.lastUpdatePrice (s.symbol i)).abs > 10
  · obtain ⟨m, hm, hsync, hbest, hengines, hquoted⟩ := h.sound.update_shown hn hq hlast
      (Int64.lt_iff_toInt_lt.2 hapart.2.1) hp
    refine ⟨_, tick_moved hp₀ hmove hm, h.ticked hnames hturn hengines
      (fun j hj => ?_) rfl (fun k hk => Function.update_of_ne hk _ _) rfl rfl ?_ ?_⟩
    · rw [hquoted, Function.update_of_ne hj]
    · exact .of_prices (hname ▸ Function.update_self ..) (hname ▸ Function.update_self ..) hd
        ⟨spread, hd, by rw [hquoted, Function.update_self]⟩ hprice hprice
        (by rw [sub_self, abs_zero]; decide) hbest
    · obtain ⟨u, hu, hsound⟩ := h.sound.perform hnames hn hq
        (c := .update i (bidAsk price spread).1 (bidAsk price spread).2)
        (Int64.lt_iff_toInt_lt.2 hapart.2.1) hp
      rw [hsync, Option.some.injEq] at hu
      rw [hu]
      exact hsound
  · have hnear : |price.toInt - (s.lastUpdatePrice (s.symbol i)).toInt| ≤ 10 :=
      not_lt.1 fun hlt => hmove (hmoved.2 hlt)
    cases hshown : s.shown i with
    | none =>
      -- the first tick of an engine moves its resting orders
      rw [hname, (h.untouched i hshown).2, show (0 : Int64).toInt = 0 from rfl, abs_le] at hnear
      omega
    | some shown =>
      have htracked := h.tracked i shown hshown
      rw [hname] at hnear
      refine ⟨_, tick_still hp₀ hmove, h.ticked hnames hturn
        (fun j hj => Function.update_of_ne hj _ _) (fun _ _ => rfl) rfl (fun _ _ => rfl) rfl rfl ?_
        (by rw [Simulation.synced_setMarketPrice]; exact h.sound)⟩
      refine .of_prices (hname ▸ Function.update_self ..) rfl hd htracked.resting hprice
        htracked.last hnear fun side => ?_
      rw [Simulation.book, show (s.market.setMarketPrice i _ _).engines i = _ from
        congrArg SimulatorRun.engine (Simulation.run_setMarketPrice s.market i _ _)]
      cases side <;> rfl

end Step

theorem Step.sane (hst : Step c s e t) (h : s.Sane c names q) (hnames : Function.Injective names)
    (hn : 2 * n + 2 ≤ orderPoolSize) (hq : q ≠ 0) (hmin : 4 ≤ c.mMinSpread.toInt) :
    t.Sane c names q := by
  cases hst with
  | «open» hi hp ht =>
    obtain ⟨u, hu, hsane⟩ := h.open hnames hn hq hi hp
    rw [ht, Option.some.injEq] at hu
    exact hu ▸ hsane
  | tick hturn hi hd hp ht =>
    obtain ⟨u, hu, hsane⟩ := h.tick hnames hn hq hmin hturn hd hp _ _
    rw [ht, Option.some.injEq] at hu
    exact hu ▸ hsane

theorem Tracked.close {symbol : List UInt8} (h : Tracked c s i symbol shown)
    (hmin : 4 ≤ c.mMinSpread.toInt) : ∃ x y, s.market.quoted i = some (x, y) ∧
      |x.toInt - shown.1.toInt| ≤ 10 + (c.mMaxSpread.toInt / 2 - c.mMinSpread.toInt / 2) ∧
      |y.toInt - shown.2.toInt| ≤ 10 + (c.mMaxSpread.toInt / 2 - c.mMinSpread.toInt / 2) := by
  obtain ⟨spread, ⟨hlow, hhigh⟩, rfl⟩ := h.drawn
  obtain ⟨spread', ⟨hlow', hhigh'⟩, hquoted⟩ := h.resting
  rw [Int64.le_iff_toInt_le] at hlow hhigh hlow' hhigh'
  have hc := h.current
  have hl := h.last
  have hnear := abs_le.1 h.near
  obtain ⟨hbid, hask⟩ := bidAsk_toInt
    (show 0 ≤ (s.currentPrices symbol).toInt ∧ (s.currentPrices symbol).toInt ≤ 1000000 by omega)
    (show 0 ≤ spread.toInt by omega)
  obtain ⟨hbid', hask'⟩ := bidAsk_toInt
    (show 0 ≤ (s.lastUpdatePrice symbol).toInt ∧ (s.lastUpdatePrice symbol).toInt ≤ 1000000 by omega)
    (show 0 ≤ spread'.toInt by omega)
  refine ⟨(bidAsk (s.lastUpdatePrice symbol) spread').1,
    (bidAsk (s.lastUpdatePrice symbol) spread').2, hquoted, ?_, ?_⟩
  · rw [hbid, hbid', abs_le]
    omega
  · rw [hask, hask', abs_le]
    omega

theorem sane_of_runs {symbols : Fin n → List UInt8} {shared : Fin n → Collaborators}
    {ts : List (SimulatorThread n × SimulatorEvent n × SimulatorThread n)}
    (hn : 2 * n + 2 ≤ orderPoolSize)
    (hsymbols : Function.Injective (Simulation.startSymbols symbols shared)) (hq : q ≠ 0)
    (hmin : 4 ≤ c.mMinSpread.toInt) (h : Runs (Step c) (start symbols shared q) ts s) :
    s.Sane c (Simulation.startSymbols symbols shared) q :=
  h.invariant (I := fun u => u.Sane c (Simulation.startSymbols symbols shared) q)
    (sane_start c symbols shared q) fun _ _ _ hu hst => hst.sane hu hsymbols hn hq hmin

theorem exists_opened (c : SimulatorSettings) : ∃ t,
    Step c (start (n := 1) (fun _ => [65]) (fun _ => {}) 500) (.opened 0) t ∧ t.turn = 1 ∧
      t.Sane c (Simulation.startSymbols (fun _ => [65]) fun _ => {}) 500 := by
  have hsane := sane_start c (n := 1) (fun _ => [65]) (fun _ => {}) 500
  obtain ⟨pool, hpool⟩ := hsane.sound.exists_answer (by decide)
  obtain ⟨t, ht, hsane'⟩ := hsane.open (Function.injective_of_subsingleton _) (by decide) (by decide)
    (i := 0) rfl hpool
  refine ⟨t, .open (i := 0) rfl hpool ht, ?_, hsane'⟩
  obtain ⟨m, -, rfl⟩ := Option.map_eq_some_iff.1 ht
  rfl

theorem pos_of_turn {symbols : Fin n → List UInt8} {shared : Fin n → Collaborators}
    {ts : List (SimulatorThread n × SimulatorEvent n × SimulatorThread n)}
    (h : Runs (Step c) (start symbols shared q) ts s) (ht : s.turn ≠ 0) : 0 < n := by
  cases h with
  | nil => exact absurd rfl ht
  | snoc h hst =>
    cases hst with
    | «open» => exact Fin.pos ‹Fin n›
    | tick => exact Fin.pos ‹Fin n›

theorem Sane.owned (h : s.Sane c names q) : s.market.Owned :=
  ⟨h.sound.owned.ringed, h.sound.owned.indexed⟩

theorem Sane.stop_dangles (h : s.Sane c names q) (hq : q ≠ 0) (hi : i.val < s.turn) :
    ¬ s.stop.market.Owned := by
  obtain ⟨⟨x, y⟩, hquoted⟩ := Option.ne_none_iff_exists'.1 (h.opened i hi)
  obtain ⟨o, -, -, -, hindex⟩ := (h.sound.quotesAt hq hquoted).named
  obtain ⟨loc, hloc⟩ := Option.ne_none_iff_exists'.1 ((hindex o.bidOrderId).2 (.inl rfl))
  intro howned
  obtain ⟨_, _, hheld, -⟩ := howned.indexed i o.bidOrderId loc hloc
  cases hheld

theorem Sane.stop_owned (h : s.Sane c names q) (ht : s.turn = 0) : s.stop.market.Owned := by
  have hempty : ∀ i, (∀ side, (s.market.book i).levels side = []) ∧
      (s.market.book i).mOrderIndex = fun _ => none := by
    intro i
    have hsettled := h.sound.settled i
    have hquoted : s.market.synced.quoted i = none := h.unopened i (ht ▸ Nat.zero_le _)
    rw [hquoted] at hsettled
    cases hsettled with
    | vacant ho ha hv => exact ⟨fun side => (hv.bare side).levels, hv.index⟩
  refine ⟨fun i side l hl p hp => ?_, fun i id loc hloc => ?_⟩
  · change l ∈ (s.market.book i).levels side at hl
    rw [(hempty i).1 side] at hl
    cases hl
  · change (s.market.book i).mOrderIndex id = some loc at hloc
    rw [(hempty i).2] at hloc
    cases hloc

/-- In every run the cells that the books refer to are held by the simulator; when it is stopped it
releases them, and the books still refer to them unless it has not had a turn. -/
theorem held_until_stopped {symbols : Fin n → List UInt8} {shared : Fin n → Collaborators}
    {ts : List (SimulatorThread n × SimulatorEvent n × SimulatorThread n)}
    (hn : 2 * n + 2 ≤ orderPoolSize)
    (hsymbols : Function.Injective (Simulation.startSymbols symbols shared)) (hq : 0 < q)
    (hmin : 4 ≤ c.mMinSpread.toInt) (h : Runs (Step c) (start symbols shared q) ts s) :
    s.market.Owned ∧ (s.stop.market.Owned ↔ s.turn = 0) := by
  have hq' : q ≠ 0 := UInt32.pos_iff_ne_zero.1 hq
  have hsane := sane_of_runs hn hsymbols hq' hmin h
  refine ⟨hsane.owned, fun howned => ?_, hsane.stop_owned⟩
  by_contra ht
  have hfirst : (⟨0, pos_of_turn h ht⟩ : Fin n).val < s.turn := Nat.pos_of_ne_zero ht
  exact hsane.stop_dangles hq' hfirst howned

/-- An engine is initialised; then the simulator is stopped. -/
theorem held_until_stopped_first : ∃ ts s,
    Runs (Step {}) (start (n := 1) (fun _ => [65]) (fun _ => {}) 500) ts s ∧ ts.length = 1 ∧
      s.market.Owned ∧ ¬ s.stop.market.Owned := by
  have hn : 2 * 1 + 2 ≤ orderPoolSize := by decide
  have hsymbols : Function.Injective (Simulation.startSymbols (n := 1) (fun _ => [65]) fun _ => {}) :=
    Function.injective_of_subsingleton _
  obtain ⟨t, hopen, hturn, -⟩ := exists_opened {}
  obtain ⟨howned, hstop⟩ := held_until_stopped hn hsymbols (by decide) (by decide)
    ((Runs.nil (R := Step {})).snoc hopen)
  have hne : t.turn ≠ 0 := by rw [hturn]; decide
  exact ⟨_, t, (Runs.nil (R := Step {})).snoc hopen, rfl, howned, fun ho => hne (hstop.1 ho)⟩

end SimulatorThread

end Velox
