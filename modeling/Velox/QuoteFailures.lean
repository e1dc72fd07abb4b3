import Velox.SimulatorQuotes

namespace Velox
set_option autoImplicit true

open PriceLevel

/-- An order rests in the book: its id is known, and it is live in a ring slot in use of a level of
its side, at its price. -/
def OrderBook.Rests (b : OrderBook) (orders : OrderHeap) (id : UInt64) : Prop :=
  ∃ loc, b.mOrderIndex id = some loc ∧ isLive orders loc.orderPtr = true ∧
    ∃ l ∈ b.levels loc.isBid, (b.level l).price = loc.price ∧ loc.orderPtr ∈ (b.level l).ring

namespace OrderBook

variable {b : OrderBook} {orders : OrderHeap} {id id' : UInt64} {o : SymbolOrders} {a : ActiveOrders}
  {q : UInt32}

theorem index_cancelOrder (id : UInt64) (orders : OrderHeap) (b : OrderBook) :
    (b.cancelOrder id orders).2.1.mOrderIndex = Function.update b.mOrderIndex id none := by
  cases hi : b.mOrderIndex id with
  | none =>
    rw [cancelOrder_unknown hi, ← hi, Function.update_eq_self]
  | some loc =>
    cases hm : b.mPriceToLevel loc.price with
    | none =>
      rw [cancelOrder_homeless hi hm]
      rfl
    | some l =>
      simp only [cancelOrder, hi, findLevel, hm]
      cases loc.isBid <;> split <;> rfl

theorem not_rests_of_unknown (h : b.mOrderIndex id = none) : ¬ b.Rests orders id := by
  rintro ⟨loc, hi, -⟩
  rw [h] at hi
  cases hi

theorem Quoted.rests (h : Quoted b orders o a q) (hq : q ≠ 0) :
    b.Rests orders o.bidOrderId ∧ b.Rests orders o.askOrderId := by
  have hside : ∀ side x p id, Single b side p x q → b.mOrderIndex id = some ⟨x, side, p⟩ →
      p ∈ a.cells → b.Rests orders id := by
    intro side x p id hs hi hp
    obtain ⟨l, hl, hx, hr, -⟩ := hs.level
    obtain ⟨-, -, hact, -⟩ := h.stocked.indexed id _ hi
    refine ⟨_, hi, ?_, l, hl ▸ List.mem_cons_self, hx, hr ▸ List.mem_cons_self⟩
    rw [isLive, hact, h.remaining p hp, Bool.true_and]
    exact decide_eq_true (UInt32.pos_iff_ne_zero.2 hq)
  constructor
  · exact hside _ _ _ _ h.bid
      (by rw [h.index, Function.update_of_ne h.ids, Function.update_self]) a.bid_mem
  · exact hside _ _ _ _ h.ask (by rw [h.index, Function.update_self]) a.ask_mem

end OrderBook

namespace SimulatorRun

/-- A call that gets as far as the pool finds no cell for the bid or none for the ask. -/
def RunsOut (s : SimulatorRun) (bidPrice askPrice : Int64)
    (pool : Option OrderCell × Option OrderCell) : Prop :=
  ∃ o, s.sim.mSymbolOrders s.engine.symbol = some o ∧
    ¬ (o.currentBidPrice = bidPrice ∧ o.currentAskPrice = askPrice) ∧
    (pool.1 = none ∨ pool.2 = none)

/-- A call returns, with both old orders resting in the book and the metadata and the handles as they
were. -/
def LeavesQuotes (s : SimulatorRun) (bidPrice askPrice : Int64)
    (pool : Option OrderCell × Option OrderCell) : Prop :=
  ∃ o t, s.sim.mSymbolOrders s.engine.symbol = some o ∧
    s.updateRestingOrders bidPrice askPrice pool = some t ∧
    t.engine.mBook.Rests t.sim.orders o.bidOrderId ∧
    t.engine.mBook.Rests t.sim.orders o.askOrderId ∧
    t.sim.mSymbolOrders = s.sim.mSymbolOrders ∧ t.sim.mActiveOrders = s.sim.mActiveOrders

variable {s t : SimulatorRun} {x y : Int64} {pool : Option OrderCell × Option OrderCell}
  {o : SymbolOrders} {a : ActiveOrders} {q : UInt32}

theorem index_cancel (s : SimulatorRun) (id : UInt64) : (s.cancel id).engine.mBook.mOrderIndex =
    Function.update s.engine.mBook.mOrderIndex id none := OrderBook.index_cancelOrder ..

theorem cancel_unknown {id : UInt64} (h : s.engine.mBook.mOrderIndex id = none) :
    s.cancel id = s := by
  rw [cancel, OrderBook.cancelOrder_unknown h]

section Quotes

variable (ho : s.sim.mSymbolOrders s.engine.symbol = some o)
  (hne : ¬ (o.currentBidPrice = x ∧ o.currentAskPrice = y))
include ho hne

theorem update_no_bid (hpool : pool.1 = none) : s.updateRestingOrders x y pool =
    some ((s.cancel o.bidOrderId).cancel o.askOrderId) := by
  simp only [updateRestingOrders, ho, if_neg hne, hpool]

theorem update_no_ask {bid : OrderCell} (hpool : pool.1 = some bid) (hpool' : pool.2 = none) :
    s.updateRestingOrders x y pool = none := by
  simp only [updateRestingOrders, ho, if_neg hne, hpool, hpool', Option.map_none]

/-- On an engine with quotes, a call without a cell for the bid leaves a book without orders behind,
and metadata and handles that still name the old ones. -/
theorem update_no_bid_vacant (hq : OrderBook.Quoted s.engine.mBook s.sim.orders o a q)
    (hpool : pool.1 = none) : ∃ t, s.updateRestingOrders x y pool = some t ∧
      t.engine.mBook.Vacant ∧ t.sim.mSymbolOrders = s.sim.mSymbolOrders ∧
      t.sim.mActiveOrders = s.sim.mActiveOrders := by
  obtain ⟨u, hu, hv, -, hsim⟩ := cancel_both hq
  refine ⟨u, by rw [update_no_bid ho hne hpool, hu], hv, ?_, ?_⟩
  · rw [hsim]
  · rw [hsim]

theorem update_unchanged_iff (hpool : pool.1 = none ∨ pool.2 = none) :
    s.updateRestingOrders x y pool = some s ↔ pool.1 = none ∧
      s.engine.mBook.mOrderIndex o.bidOrderId = none ∧
      s.engine.mBook.mOrderIndex o.askOrderId = none := by
  cases hbid : pool.1 with
  | none =>
    rw [update_no_bid ho hne hbid, Option.some.injEq, and_iff_right rfl]
    constructor
    · intro he
      have hindex := index_cancel (s.cancel o.bidOrderId) o.askOrderId
      rw [he, index_cancel] at hindex
      have hask : s.engine.mBook.mOrderIndex o.askOrderId = none := by
        rw [hindex, Function.update_self]
      refine ⟨?_, hask⟩
      by_cases hid : o.bidOrderId = o.askOrderId
      · rw [hid, hask]
      · rw [hindex, Function.update_of_ne hid, Function.update_self]
    · rintro ⟨hbid, hask⟩
      rw [cancel_unknown hbid, cancel_unknown hask]
  | some bid =>
    have hask := hpool.resolve_left (by rw [hbid]; exact Option.some_ne_none _)
    rw [update_no_ask ho hne hbid hask]
    exact iff_of_false (by rintro ⟨⟩) (by rintro ⟨⟨⟩, -⟩)

end Quotes

theorem leavesQuotes_same (ho : s.sim.mSymbolOrders s.engine.symbol = some o)
    (hquoted : OrderBook.Quoted s.engine.mBook s.sim.orders o a q) (hq : q ≠ 0) :
    s.LeavesQuotes o.currentBidPrice o.currentAskPrice pool := by
  obtain ⟨hbid, hask⟩ := hquoted.rests hq
  refine ⟨o, s, ho, ?_, hbid, hask, rfl, rfl⟩
  simp only [updateRestingOrders, ho, and_self, if_true]

theorem not_leavesQuotes (h : s.RunsOut x y pool) : ¬ s.LeavesQuotes x y pool := by
  obtain ⟨o, ho, hne, hpool⟩ := h
  rintro ⟨o', t, ho', ht, -, hask, -⟩
  rw [ho, Option.some.injEq] at ho'
  subst ho'
  cases hbid : pool.1 with
  | none =>
    rw [update_no_bid ho hne hbid, Option.some.injEq] at ht
    subst ht
    refine OrderBook.not_rests_of_unknown ?_ hask
    rw [index_cancel, Function.update_self]
  | some bid =>
    rw [update_no_ask ho hne hbid (hpool.resolve_left (by rw [hbid]; exact Option.some_ne_none _))]
      at ht
    cases ht

end SimulatorRun

namespace Simulation

variable {n k : ℕ} {s : Simulation n} {names : Fin n → List UInt8} {q : UInt32} {i : Fin n}
  {x y : Int64} {r : SimulatorRun} {a : ActiveOrders} {p : OrderPtr}

theorem held_put {prices : Option (Int64 × Int64)}
    (hr : r.sim.mActiveOrders = Function.update s.sim.mActiveOrders (names i) (some a))
    (hnone : s.sim.mActiveOrders (names i) = none) :
    (s.put i r prices).sim.Held p ↔ p ∈ a.cells ∨ s.sim.Held p := by
  constructor
  · rintro ⟨symbol, b, hb, hp⟩
    change r.sim.mActiveOrders symbol = some b at hb
    rw [hr] at hb
    by_cases hsymbol : symbol = names i
    · rw [hsymbol, Function.update_self, Option.some.injEq] at hb
      exact .inl (hb ▸ hp)
    · rw [Function.update_of_ne hsymbol] at hb
      exact .inr ⟨symbol, b, hb, hp⟩
  · rintro (hp | ⟨symbol, b, hb, hp⟩)
    · refine ⟨names i, a, ?_, hp⟩
      change r.sim.mActiveOrders _ = _
      rw [hr, Function.update_self]
    · refine ⟨symbol, b, ?_, hp⟩
      change r.sim.mActiveOrders _ = _
      rw [hr, Function.update_of_ne, hb]
      rintro rfl
      rw [hnone] at hb
      cases hb

/-- The first engines are initialised, with the first cells of the pool, and the others are not. -/
structure Filled (s : Simulation n) (names : Fin n → List UInt8) (q : UInt32) (k : ℕ) : Prop where
  sound : s.Sound names q
  held : ∀ p : ℕ, s.sim.Held p ↔ p < 2 * k
  quoted : ∀ i : Fin n, s.quoted i = if i.val < k then some (990, 1010) else none

theorem filled_start (symbols : Fin n → List UInt8) (shared : Fin n → Collaborators) (q : UInt32) :
    (start symbols shared q).Filled (startSymbols symbols shared) q 0 where
  sound := sound_start symbols shared q
  held := fun p => iff_of_false (by rintro ⟨symbol, a, ha, -⟩; cases ha) (Nat.not_lt_zero p)
  quoted := fun i => rfl

theorem Filled.step (h : s.Filled names q k) (hnames : Function.Injective names) (hq : q ≠ 0)
    (hk : k < n) (hpool : 2 * n ≤ orderPoolSize) :
    ∃ t, Step s (.init ⟨k, hk⟩ 1000) t ∧ t.Filled names q (k + 1) := by
  have hset := h.sound.settled ⟨k, hk⟩
  have hquoted : s.quoted ⟨k, hk⟩ = none := by rw [h.quoted, if_neg (Nat.lt_irrefl k)]
  rw [hquoted] at hset
  cases hset with
  | vacant ho ha hv =>
    obtain ⟨r, he, hr⟩ : ∃ r, (s.run ⟨k, hk⟩).initializeRestingOrders 1000
        (some (2 * k, {}), some (2 * k + 1, {})) = some r ∧
          SimulatorRun.Requoted q (s.run ⟨k, hk⟩) r 990 1010 ⟨2 * k, 2 * k + 1⟩ :=
      SimulatorRun.initialize_requotes hv (Nat.lt_succ_self (2 * k)).ne h.sound.resting hq 1000
    have hname : (s.run ⟨k, hk⟩).engine.symbol = names ⟨k, hk⟩ := h.sound.symbol _
    have hactive : r.sim.mActiveOrders = Function.update s.sim.mActiveOrders (names ⟨k, hk⟩)
        (some ⟨2 * k, 2 * k + 1⟩) := by
      rw [hr.active, hname]
      rfl
    have hmem : ∀ p : ℕ,
        p ∈ (⟨2 * k, 2 * k + 1⟩ : ActiveOrders).cells ↔ p = 2 * k + 1 ∨ p = 2 * k := by
      intro p
      rw [ActiveOrders.cells, List.mem_cons, List.mem_singleton]
    have hfree : ∀ p, 2 * k ≤ p → ¬ s.sim.Held p :=
      fun p hp hh => absurd ((h.held p).1 hh) (Nat.not_lt.2 hp)
    have hanswer : s.sim.MayAnswer (some (2 * k, {}), some (2 * k + 1, {})) := by
      have hlt : 2 * k + 1 < orderPoolSize := by omega
      refine ⟨⟨Nat.lt_of_succ_lt hlt, hfree _ le_rfl⟩, hlt, ?_⟩
      rintro (hh | he)
      · exact hfree _ (Nat.le_succ _) hh
      · exact absurd (Option.some.inj he) (Nat.lt_succ_self (2 * k)).ne
    refine ⟨s.put ⟨k, hk⟩ r (some (990, 1010)), .call hquoted hanswer ?_, ?_, fun p => ?_,
      fun i => ?_⟩
    · rw [Simulation.perform, he]
      rfl
    · refine h.sound.put hnames hr fun p hp => hfree p ?_
      rcases (hmem p).1 hp with rfl | rfl
      · exact Nat.le_succ _
      · exact le_rfl
    · rw [held_put hactive (by rw [← hname]; exact ha), hmem, h.held]
      omega
    · by_cases hi : i = ⟨k, hk⟩
      · rw [hi, quoted_put_self, if_pos (Nat.lt_succ_self k)]
      · have hne : i.val ≠ k := fun he => hi (Fin.ext he)
        rw [quoted_put_other hi, h.quoted]
        split <;> split <;> first | rfl | omega

theorem exists_filled {symbols : Fin n → List UInt8} {shared : Fin n → Collaborators}
    (hsymbols : Function.Injective (startSymbols symbols shared)) (hq : q ≠ 0)
    (hpool : 2 * n ≤ orderPoolSize) (hk : k ≤ n) :
    ∃ ts s, Runs Step (start symbols shared q) ts s ∧
      s.Filled (startSymbols symbols shared) q k := by
  induction k with
  | zero => exact ⟨[], _, .nil, filled_start symbols shared q⟩
  | succ k ih =>
    obtain ⟨ts, s, hr, hs⟩ := ih (Nat.le_of_succ_le hk)
    obtain ⟨t, hstep, ht⟩ := hs.step hsymbols hq hk hpool
    exact ⟨_, t, hr.snoc hstep, ht⟩

theorem Filled.runsOut (h : s.Filled names q n) (hpool : 2 * n = orderPoolSize) (i : Fin n)
    (hne : ¬ ((990 : Int64) = x ∧ (1010 : Int64) = y)) :
    s.sim.MayAnswer (none, none) ∧ (s.run i).RunsOut x y (none, none) := by
  have hall : ∀ p < orderPoolSize, s.sim.Held p := fun p hp => (h.held p).2 (hpool ▸ hp)
  refine ⟨⟨hall, fun p hp => .inl (hall p hp)⟩, ?_⟩
  have hset := h.sound.settled i
  rw [h.quoted, if_pos i.isLt] at hset
  generalize hlast : some ((990 : Int64), (1010 : Int64)) = last at hset
  cases hset with
  | vacant => cases hlast
  | @quoted o a ho ha hq =>
    obtain ⟨hbid, hask⟩ := Prod.mk.inj (Option.some.inj hlast)
    exact ⟨o, ho, by rw [← hbid, ← hask]; exact hne, .inl rfl⟩

/-- Four capital letters, a different name for every number below 26^4. -/
def letters (i : ℕ) : List UInt8 :=
  [.ofNat (65 + i % 26), .ofNat (65 + i / 26 % 26), .ofNat (65 + i / 676 % 26),
    .ofNat (65 + i / 17576 % 26)]

theorem letters_inj {i j : ℕ} (hi : i < 456976) (hj : j < 456976) (h : letters i = letters j) :
    i = j := by
  simp only [letters, List.cons.injEq, and_true, ← UInt8.toNat_inj, UInt8.toNat_ofNat'] at h
  omega

theorem startSymbols_letters (i : Fin 50000) :
    startSymbols (fun i : Fin 50000 => letters i) (fun _ => {}) i = letters i := by
  change ((letters i).take 7).takeWhile (· ≠ 0) = letters i
  have hne : ∀ c < 26, UInt8.ofNat (65 + c) ≠ 0 := by decide
  rw [List.take_of_length_le (by decide : 4 ≤ 7), List.takeWhile_eq_self_iff]
  intro b hb
  simp only [letters, List.mem_cons, List.not_mem_nil, or_false] at hb
  apply decide_eq_true
  rcases hb with rfl | rfl | rfl | rfl <;> exact hne _ (Nat.mod_lt _ (by decide))

theorem startSymbols_letters_injective :
    Function.Injective (startSymbols (fun i : Fin 50000 => letters i) fun _ => {}) := by
  intro i j h
  rw [startSymbols_letters, startSymbols_letters] at h
  have hi := i.isLt
  have hj := j.isLt
  exact Fin.ext (letters_inj (by omega) (by omega) h)

/-- Fifty thousand engines hold all cells of the pool, and an update of the first one runs out. -/
theorem exists_exhausted : ∃ ts s,
    Runs Step (start (fun i : Fin 50000 => letters i) (fun _ => {}) 500) ts s ∧
      s.sim.MayAnswer (none, none) ∧ s.QuotesAt 0 990 1010 500 ∧
      (s.run 0).RunsOut 995 1015 (none, none) := by
  have hq : (500 : UInt32) ≠ 0 := by decide
  obtain ⟨ts, s, hr, hs⟩ := exists_filled (k := 50000) startSymbols_letters_injective hq
    (by decide) le_rfl
  obtain ⟨hpool, hout⟩ := hs.runsOut (x := 995) (y := 1015) (by decide) 0 (by decide)
  refine ⟨ts, s, hr, hpool, hs.sound.quotesAt hq ?_, hout⟩
  rw [hs.quoted]
  exact if_pos (by decide)

end Simulation

/-- Whenever the pool runs out of cells in an update, the call does not leave the old quotes; and it
leaves everything as it was only if the old orders had gone before. -/
theorem SimulatorRun.failed_update_loses_quotes {s : SimulatorRun} {x y : Int64}
    {pool : Option OrderCell × Option OrderCell} (h : s.RunsOut x y pool) :
    ¬ s.LeavesQuotes x y pool ∧ ∀ o, s.sim.mSymbolOrders s.engine.symbol = some o →
      (s.updateRestingOrders x y pool = some s ↔ pool.1 = none ∧
        s.engine.mBook.mOrderIndex o.bidOrderId = none ∧
        s.engine.mBook.mOrderIndex o.askOrderId = none) := by
  refine ⟨not_leavesQuotes h, fun o ho => ?_⟩
  obtain ⟨o', ho', hne, hpool⟩ := h
  rw [ho, Option.some.injEq] at ho'
  subst ho'
  exact update_unchanged_iff ho hne hpool

namespace Simulation

/-- With fifty thousand engines the pool is used up, and an update of any of them empties its book. -/
theorem failed_update_fifty_thousand : ∃ ts s,
    Runs Step (start (fun i : Fin 50000 => letters i) (fun _ => {}) 500) ts s ∧
      s.sim.MayAnswer (none, none) ∧ s.QuotesAt 0 990 1010 500 ∧
      ¬ (s.run 0).LeavesQuotes 995 1015 (none, none) := by
  obtain ⟨ts, s, hr, hpool, hquotes, hout⟩ := exists_exhausted
  exact ⟨ts, s, hr, hpool, hquotes, (SimulatorRun.failed_update_loses_quotes hout).1⟩

theorem exhausted_pool_loses_quotes : ¬ ∀ (n : ℕ) (symbols : Fin n → List UInt8)
    (shared : Fin n → Collaborators) (q : UInt32) (ts) (s : Simulation n) (i : Fin n) (x y : Int64)
    (pool : Option OrderCell × Option OrderCell),
    Function.Injective (startSymbols symbols shared) → Runs Step (start symbols shared q) ts s →
    s.sim.MayAnswer pool → (s.run i).RunsOut x y pool → (s.run i).LeavesQuotes x y pool := by
  intro h
  obtain ⟨ts, s, hr, hpool, -, hout⟩ := exists_exhausted
  exact SimulatorRun.not_leavesQuotes hout
    (h _ _ _ _ _ _ _ _ _ _ startSymbols_letters_injective hr hpool hout)

end Simulation

end Velox
