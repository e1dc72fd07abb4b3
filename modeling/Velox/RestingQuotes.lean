import Velox.MarketSimulator
import Velox.SingleOrders

namespace Velox
set_option autoImplicit true

open OrderBook PriceLevel

namespace ActiveOrders

theorem bid_mem (a : ActiveOrders) : a.bid ∈ a.cells := List.mem_cons_of_mem _ List.mem_cons_self

theorem ask_mem (a : ActiveOrders) : a.ask ∈ a.cells := List.mem_cons_self

theorem not_mem_cells {a : ActiveOrders} {p : OrderPtr} : p ∉ a.cells ↔ p ≠ a.ask ∧ p ≠ a.bid := by
  simp only [cells, List.mem_cons, List.not_mem_nil, or_false, not_or, ne_eq]

end ActiveOrders

namespace OrderBook

/-- A book that refers to no order. -/
structure Vacant (b : OrderBook) : Prop where
  stocked : ∀ orders, Stocked b orders []
  bare : ∀ s, Bare b s
  index : b.mOrderIndex = fun _ => none
  best : b.updateBestPrices = b

/-- A book with one bid and one ask, in the cells held for them, under the ids in the metadata. -/
structure Quoted (b : OrderBook) (orders : OrderHeap) (o : SymbolOrders) (a : ActiveOrders)
    (q : UInt32) : Prop where
  stocked : Stocked b orders a.cells
  bid : Single b true a.bid o.currentBidPrice q
  ask : Single b false a.ask o.currentAskPrice q
  index : b.mOrderIndex = Function.update
    (Function.update (fun _ => none) o.bidOrderId (some ⟨o.currentBidPrice, true, a.bid⟩))
    o.askOrderId (some ⟨o.currentAskPrice, false, a.ask⟩)
  ids : o.bidOrderId ≠ o.askOrderId
  cells : a.bid ≠ a.ask
  remaining : ∀ p ∈ a.cells, (orders p).remainingQuantity = q
  best : b.updateBestPrices = b

variable {b : OrderBook} {orders orders' : OrderHeap} {known : List OrderPtr} {o : SymbolOrders}
  {a : ActiveOrders} {q : UInt32}

theorem Stocked.vacant (h : Stocked b orders known) (hb : ∀ s, Bare b s)
    (hi : b.mOrderIndex = fun _ => none) (hbest : b.updateBestPrices = b) : Vacant b where
  stocked := fun orders' =>
    { shelves := h.shelves.orders_congr fun s l hl => by
        rw [(hb s).levels] at hl
        cases hl
      ringed := fun s l hl => by
        rw [(hb s).levels] at hl
        cases hl
      indexed := fun id loc he => by
        rw [hi] at he
        cases he }
  bare := hb
  index := hi
  best := hbest

theorem vacant_new (symbol : List UInt8) : Vacant (OrderBook.new symbol) :=
  (Session.kept_start symbol).stocked.vacant (fun s => by cases s <;> exact ⟨rfl, rfl⟩) rfl rfl

theorem Quoted.congr (h : Quoted b orders o a q)
    (hsame : ∀ p ∈ a.cells, orders' p = orders p) : Quoted b orders' o a q :=
  { h with
    stocked := h.stocked.relabel
      (fun p hp => by rw [hsame p hp]; exact ⟨rfl, rfl, rfl, rfl⟩)
      fun p hp => .inl (by rw [hsame p hp])
    remaining := fun p hp => by rw [hsame p hp]; exact h.remaining p hp }

theorem Quoted.cancelled (h : Quoted b orders o a q) : ∃ b₁ b₂,
    b.cancelOrder o.bidOrderId orders = (true, b₁, cancelIn orders a.bid) ∧
    b₁.cancelOrder o.askOrderId (cancelIn orders a.bid) =
      (true, b₂, cancelIn (cancelIn orders a.bid) a.ask) ∧
    Vacant b₂ ∧ b₂.mSymbol = b.mSymbol := by
  obtain ⟨b₁, he₁, hst₁, hc₁⟩ := h.stocked.single_cancel h.bid
    (by rw [h.index, Function.update_of_ne h.ids, Function.update_self]) (h.remaining _ a.bid_mem)
  have hrem : (cancelIn orders a.bid a.ask).remainingQuantity = q := by
    rw [cancelIn_other h.cells.symm]
    exact h.remaining _ a.ask_mem
  obtain ⟨b₂, he₂, hst₂, hc₂⟩ := hst₁.single_cancel (h.ask.kept hc₁.other)
    (by rw [hc₁.index, Function.update_of_ne h.ids.symm, h.index, Function.update_self]) hrem
  refine ⟨b₁, b₂, he₁, he₂, hst₂.vacant (fun s => ?_) ?_ hc₂.best, hc₂.symbol.trans hc₁.symbol⟩
  · cases s with
    | true => exact hc₁.bare.kept hc₂.other
    | false => exact hc₂.bare
  · funext id
    rw [hc₂.index, hc₁.index, h.index]
    simp only [Function.update_apply]
    split_ifs <;> rfl

theorem Vacant.quoted (hv : Vacant b) {p r : OrderPtr} {o₁ o₂ : OrderHeap} (hpr : p ≠ r)
    (hold : o₂ p = o₁ p) (hside : (o₁ p).isBuy = true) (hside' : (o₂ r).isBuy = false)
    (hact : (o₁ p).isActive = true) (hact' : (o₂ r).isActive = true)
    (hrem : (o₁ p).remainingQuantity = q) (hrem' : (o₂ r).remainingQuantity = q) (hq : q ≠ 0)
    (hx : (o₁ p).price ≠ (o₂ r).price) (hid : (o₁ p).orderId ≠ (o₂ r).orderId) :
    Quoted ((b.addOrder (some p) o₁).2.addOrder (some r) o₂).2 o₂
      ⟨(o₁ p).orderId, (o₂ r).orderId, (o₁ p).price, (o₂ r).price⟩ ⟨p, r⟩ q := by
  obtain ⟨hst, hbid, hother⟩ := (hv.stocked o₁).single_add (p := p) List.not_mem_nil hact
    (by rw [hrem]; exact hq) (hv.bare _)
    (fun l hl => by rw [(hv.bare _).levels] at hl; cases hl) hv.best
  rw [hside] at hbid hother
  rw [hrem] at hbid
  have hst₁ : Stocked (b.addOrder (some p) o₁).2 o₂ [p] := hst.relabel
    (fun s hs => by rw [List.mem_singleton.1 hs, hold]; exact ⟨rfl, rfl, rfl, rfl⟩)
    fun s hs => .inl (by rw [List.mem_singleton.1 hs, hold])
  have hbare : Bare (b.addOrder (some p) o₁).2 (o₂ r).isBuy := by
    rw [hside']
    exact (hv.bare false).kept hother
  have hout : ∀ l ∈ (b.addOrder (some p) o₁).2.levels (!(o₂ r).isBuy),
      (b.addOrder (some p) o₁).2.priceAt l ≠ (o₂ r).price := by
    rw [hside']
    obtain ⟨m, hm, hxm, -⟩ := hbid.level
    intro l hl
    rw [Bool.not_false, hm, List.mem_singleton] at hl
    rw [hl, hxm]
    exact hx
  obtain ⟨hst₂, hask, hother₂⟩ := hst₁.single_add (p := r)
    (fun hm => hpr (List.mem_singleton.1 hm).symm) hact' (by rw [hrem']; exact hq) hbare hout rfl
  rw [hside'] at hask hother₂
  rw [hrem'] at hask
  refine ⟨hst₂, hbid.kept hother₂, hask, ?_, hid, hpr, fun s hs => ?_, rfl⟩
  · rw [index_addOrder, index_addOrder, hv.index, hside, hside']
  · rcases List.mem_cons.1 hs with rfl | hs
    · exact hrem'
    · rw [List.mem_singleton.1 hs, hold, hrem]

end OrderBook

namespace SimulatorRun

/-- How an engine and the simulator are between two calls, given the prices last set. -/
inductive Settled (q : UInt32) (s : SimulatorRun) : Option (Int64 × Int64) → Prop
  | vacant (ho : s.sim.mSymbolOrders s.engine.symbol = none)
      (ha : s.sim.mActiveOrders s.engine.symbol = none) (hv : Vacant s.engine.mBook) :
      Settled q s none
  | quoted {o : SymbolOrders} {a : ActiveOrders}
      (ho : s.sim.mSymbolOrders s.engine.symbol = some o)
      (ha : s.sim.mActiveOrders s.engine.symbol = some a)
      (hq : Quoted s.engine.mBook s.sim.orders o a q) :
      Settled q s (some (o.currentBidPrice, o.currentAskPrice))

/-- A call has put quotes at these prices into these cells, and has touched no other cell but those
held for the symbol before. -/
structure Requoted (q : UInt32) (s t : SimulatorRun) (x y : Int64) (a : ActiveOrders) : Prop where
  symbol : t.engine.symbol = s.engine.symbol
  resting : t.sim.mRestingQuantity = s.sim.mRestingQuantity
  active : t.sim.mActiveOrders = Function.update s.sim.mActiveOrders s.engine.symbol (some a)
  quoted : ∃ o : SymbolOrders, o.currentBidPrice = x ∧ o.currentAskPrice = y ∧
    t.sim.mSymbolOrders = Function.update s.sim.mSymbolOrders s.engine.symbol (some o) ∧
    Quoted t.engine.mBook t.sim.orders o a q
  kept : ∀ p ∉ a.cells, (∀ old, s.sim.mActiveOrders s.engine.symbol = some old → p ∉ old.cells) →
    t.sim.orders p = s.sim.orders p

variable {s t : SimulatorRun} {q : UInt32} {bid ask cell : OrderCell} {x y : Int64}
  {side : OrderSide} {o : SymbolOrders} {a : ActiveOrders} {last : Option (Int64 × Int64)}

theorem symbol_place : (s.place side x cell).engine.symbol = s.engine.symbol := by
  rw [SymbolEngine.symbol, place, symbol_addOrder, SymbolEngine.symbol]

theorem place_self : (s.place side x cell).sim.orders cell.1 =
    s.sim.restingOrder side x s.engine.symbol cell.2 := Function.update_self ..

theorem place_other {p : OrderPtr} (h : p ≠ cell.1) :
    (s.place side x cell).sim.orders p = s.sim.orders p := Function.update_of_ne h ..

/-- With nothing in the book, a bid and an ask placed and stored are its quotes. -/
theorem requote (hv : Vacant s.engine.mBook) (hc : bid.1 ≠ ask.1) (hx : x ≠ y)
    (hr : s.sim.mRestingQuantity.toUInt32 = q) (hq : q ≠ 0) :
    Requoted q s (((s.place .BUY x bid).place .SELL y ask).store bid.1 ask.1 x y) x y
      ⟨bid.1, ask.1⟩ := by
  have hnext : s.sim.mNextOrderId + 1 ≠ s.sim.mNextOrderId + 1 + 1 := by grind
  have hlast : s.sim.mNextOrderId + 1 + 1 - 1 = s.sim.mNextOrderId + 1 := by grind
  let u := (s.place .BUY x bid).place .SELL y ask
  have hsymbol : u.engine.symbol = s.engine.symbol := symbol_place.trans symbol_place
  have hold : u.sim.orders bid.1 = (s.place .BUY x bid).sim.orders bid.1 := place_other hc
  have hquoted := hv.quoted (q := q) hc hold (by rw [place_self]; rfl) (by rw [place_self]; rfl)
    (by rw [place_self]; rfl) (by rw [place_self]; rfl) (by rw [place_self]; exact hr)
    (by rw [place_self]; exact hr) hq (by rw [place_self, place_self]; exact hx)
    (by rw [place_self, place_self]; exact hnext)
  rw [place_self, place_self] at hquoted
  refine ⟨hsymbol, rfl, ?_,
    ⟨⟨s.sim.mNextOrderId + 1 + 1 - 1, s.sim.mNextOrderId + 1 + 1, x, y⟩, rfl, rfl, ?_, ?_⟩,
    fun p hp _ => ?_⟩
  · change Function.update s.sim.mActiveOrders u.engine.symbol _ = _
    rw [hsymbol]
  · change Function.update s.sim.mSymbolOrders u.engine.symbol _ = _
    rw [hsymbol]
    rfl
  · rw [hlast]
    exact hquoted
  · obtain ⟨hask, hbid⟩ := ActiveOrders.not_mem_cells.1 hp
    exact (place_other hask).trans (place_other hbid)

theorem symbol_cancel {b : OrderBook} (h : b.mSymbol = s.engine.mBook.mSymbol) :
    ({ s.engine with mBook := b } : SymbolEngine).symbol = s.engine.symbol := by
  rw [SymbolEngine.symbol, h, SymbolEngine.symbol]

theorem initialize_requotes (hv : Vacant s.engine.mBook) (hc : bid.1 ≠ ask.1)
    (hr : s.sim.mRestingQuantity.toUInt32 = q) (hq : q ≠ 0) (x : Int64) :
    ∃ t, s.initializeRestingOrders x (some bid, some ask) = some t ∧
      Requoted q s t (x - 10) (x + 10) ⟨bid.1, ask.1⟩ :=
  ⟨_, rfl, requote hv hc (by grind) hr hq⟩

theorem cancel_both (hq : Quoted s.engine.mBook s.sim.orders o a q) :
    ∃ u : SimulatorRun, (s.cancel o.bidOrderId).cancel o.askOrderId = u ∧ Vacant u.engine.mBook ∧
      u.engine.symbol = s.engine.symbol ∧
      u.sim = { s.sim with orders := cancelIn (cancelIn s.sim.orders a.bid) a.ask } := by
  obtain ⟨b₁, b₂, he₁, he₂, hv, hs⟩ := hq.cancelled
  refine ⟨⟨{ s.engine with mBook := b₂ },
    { s.sim with orders := cancelIn (cancelIn s.sim.orders a.bid) a.ask }⟩, ?_, hv,
    symbol_cancel hs, rfl⟩
  simp only [cancel, he₁, he₂]

theorem update_requotes (ho : s.sim.mSymbolOrders s.engine.symbol = some o)
    (ha : s.sim.mActiveOrders s.engine.symbol = some a)
    (hquoted : Quoted s.engine.mBook s.sim.orders o a q)
    (hne : ¬ (o.currentBidPrice = x ∧ o.currentAskPrice = y)) (hx : x ≠ y) (hc : bid.1 ≠ ask.1)
    (hr : s.sim.mRestingQuantity.toUInt32 = q) (hq : q ≠ 0) :
    ∃ t, s.updateRestingOrders x y (some bid, some ask) = some t ∧
      Requoted q s t x y ⟨bid.1, ask.1⟩ := by
  obtain ⟨u, hu, hv, hsymbol, hsim⟩ := cancel_both hquoted
  have hre : Requoted q u (((u.place .BUY x bid).place .SELL y ask).store bid.1 ask.1 x y) x y
      ⟨bid.1, ask.1⟩ := requote hv hc hx (by rw [hsim]; exact hr) hq
  refine ⟨_, ?_, hre.symbol.trans hsymbol, ?_, ?_, ?_, fun p hp hold => ?_⟩
  · simp only [updateRestingOrders, ho, if_neg hne, hu, Option.map_some]
  · rw [hre.resting, hsim]
  · rw [hre.active, hsim, hsymbol]
  · obtain ⟨o', hbid, hask, hmeta, hq'⟩ := hre.quoted
    refine ⟨o', hbid, hask, ?_, hq'⟩
    rw [hmeta, hsim, hsymbol]
  · obtain ⟨hask, hbid⟩ := ActiveOrders.not_mem_cells.1 (hold a ha)
    have hcells : u.sim.orders p = s.sim.orders p := by
      rw [hsim]
      exact (cancelIn_other hask).trans (cancelIn_other hbid)
    refine (hre.kept p hp fun old hu => hold old ?_).trans hcells
    rw [← hu, hsim, hsymbol]

theorem Settled.frame (h : Settled q s last) (he : t.engine = s.engine)
    (ho : t.sim.mSymbolOrders s.engine.symbol = s.sim.mSymbolOrders s.engine.symbol)
    (ha : t.sim.mActiveOrders s.engine.symbol = s.sim.mActiveOrders s.engine.symbol)
    (hcells : ∀ a, s.sim.mActiveOrders s.engine.symbol = some a →
      ∀ p ∈ a.cells, t.sim.orders p = s.sim.orders p) : Settled q t last := by
  cases h with
  | vacant ho' ha' hv => exact .vacant (by rw [he, ho, ho']) (by rw [he, ha, ha']) (by rwa [he])
  | quoted ho' ha' hq =>
    refine .quoted (by rw [he, ho, ho']) (by rw [he, ha, ha']) ?_
    rw [he]
    exact hq.congr (hcells _ ha')

theorem Requoted.settled (h : Requoted q s t x y a) : Settled q t (some (x, y)) := by
  obtain ⟨o, rfl, rfl, hmeta, hq⟩ := h.quoted
  refine .quoted ?_ ?_ hq
  · rw [h.symbol, hmeta, Function.update_self]
  · rw [h.symbol, h.active, Function.update_self]

end SimulatorRun

end Velox
