import Velox.RestingQuotes

namespace Velox
set_option autoImplicit true

open OrderBook PriceLevel

/-- A side of a book has one level, with one live order in the one ring slot in use, and shows its
price and open quantity. -/
structure OrderBook.OneQuote (b : OrderBook) (orders : OrderHeap) (isBid : Bool) (id : UInt64)
    (price : Int64) (quantity : UInt32) : Prop where
  level : ∃ l p, b.levels isBid = [l] ∧ (b.level l).price = price ∧
    (b.level l).slots = [some p] ∧ isLive orders p = true ∧ (orders p).orderId = id ∧
    (orders p).remainingQuantity = quantity
  depth : b.depth isBid = quantity
  best : b.bestPrice isBid = price

theorem OrderBook.Stocked.oneQuote {b : OrderBook} {orders : OrderHeap} {known : List OrderPtr}
    {p : OrderPtr} {side : Bool} {x : Int64} {q : UInt32} {id : UInt64}
    (h : Stocked b orders known) (hs : Single b side p x q)
    (hi : b.mOrderIndex id = some ⟨x, side, p⟩) (hrem : (orders p).remainingQuantity = q)
    (hq : q ≠ 0) (hbest : b.updateBestPrices = b) : b.OneQuote orders side id x q := by
  obtain ⟨l, hl, hx, hr, -⟩ := hs.level
  obtain ⟨-, hid, hact, -⟩ := h.indexed id _ hi
  have hslots : (b.level l).slots = [some p] := by
    rw [(h.shelves.wf side l (hl ▸ List.mem_cons_self)).nonnull, hr]
    rfl
  have hlive : isLive orders p = true := by
    rw [isLive, hact, hrem, Bool.true_and]
    exact decide_eq_true (UInt32.pos_iff_ne_zero.2 hq)
  exact ⟨⟨l, p, hl, hx, hslots, hlive, hid, hrem⟩, hs.depth, hs.best hbest⟩

namespace Simulation

variable {n : ℕ} {s t : Simulation n} {names : Fin n → List UInt8} {q : UInt32} {i j : Fin n}
  {c : SimulatorCall n} {pool : Option OrderCell × Option OrderCell} {p : OrderPtr}
  {a : ActiveOrders} {x y : Int64} {r : SimulatorRun}

def book (s : Simulation n) (i : Fin n) : OrderBook := (s.engines i).mBook

/-- An engine shows one bid and one ask, and the metadata names these two and no other order. -/
structure QuotesAt (s : Simulation n) (i : Fin n) (bid ask : Int64) (q : UInt32) : Prop where
  named : ∃ o, s.sim.mSymbolOrders (s.engines i).symbol = some o ∧
    (s.book i).OneQuote s.sim.orders true o.bidOrderId bid q ∧
    (s.book i).OneQuote s.sim.orders false o.askOrderId ask q ∧
    ∀ id, (s.book i).mOrderIndex id ≠ none ↔ id = o.bidOrderId ∨ id = o.askOrderId

/-- No ring slot in use and no index entry of a book refers to a cell that has been released. -/
structure Owned (s : Simulation n) : Prop where
  ringed : ∀ i side, ∀ l ∈ (s.book i).levels side, ∀ p ∈ ((s.book i).level l).ring, s.sim.Held p
  indexed : ∀ i id loc, (s.book i).mOrderIndex id = some loc → s.sim.Held loc.orderPtr

/-- The invariant: every engine is settled, and the cells held for two symbols are apart. -/
structure Sound (s : Simulation n) (names : Fin n → List UInt8) (q : UInt32) : Prop where
  symbol : ∀ i, (s.engines i).symbol = names i
  resting : s.sim.mRestingQuantity.toUInt32 = q
  settled : ∀ i, (s.run i).Settled q (s.quoted i)
  keys : ∀ k a, s.sim.mActiveOrders k = some a → ∃ i, names i = k
  apart : ∀ k k' a a', s.sim.mActiveOrders k = some a → s.sim.mActiveOrders k' = some a' →
    k ≠ k' → ∀ p ∈ a.cells, p ∉ a'.cells

theorem run_put_self (s : Simulation n) (i : Fin n) (r : SimulatorRun)
    (prices : Option (Int64 × Int64)) : (s.put i r prices).run i = r := by
  have he : (s.put i r prices).engines i = r.engine := Function.update_self ..
  rw [run, he]
  rfl

theorem quoted_put_self (s : Simulation n) (i : Fin n) (r : SimulatorRun)
    (prices : Option (Int64 × Int64)) : (s.put i r prices).quoted i = prices :=
  Function.update_self ..

theorem engines_put_other (hj : j ≠ i) (prices : Option (Int64 × Int64)) :
    (s.put i r prices).engines j = s.engines j := Function.update_of_ne hj ..

theorem quoted_put_other (hj : j ≠ i) (prices : Option (Int64 × Int64)) :
    (s.put i r prices).quoted j = s.quoted j := Function.update_of_ne hj ..

theorem put_run (s : Simulation n) (i : Fin n) : s.put i (s.run i) (s.quoted i) = s := by
  simp only [put, run, Function.update_eq_self]

theorem sound_start (symbols : Fin n → List UInt8) (shared : Fin n → Collaborators) (q : UInt32) :
    (start symbols shared q).Sound (startSymbols symbols shared) q where
  symbol := fun _ => rfl
  resting := q.toUInt32_toInt32
  settled := fun i => .vacant rfl rfl (vacant_new (symbols i))
  keys := fun k a h => by cases h
  apart := fun k k' a a' h => by cases h

section Cells

def heldCells (s : Simulation n) (names : Fin n → List UInt8) : List OrderPtr :=
  (List.finRange n).flatMap fun i => (s.sim.mActiveOrders (names i)).elim [] ActiveOrders.cells

theorem length_heldCells (s : Simulation n) (names : Fin n → List UInt8) :
    (s.heldCells names).length ≤ 2 * n := by
  rw [heldCells, List.length_flatMap]
  refine (List.sum_le_card_nsmul _ 2 fun k hk => ?_).trans (by simp [Nat.mul_comm])
  obtain ⟨i, -, rfl⟩ := List.mem_map.1 hk
  cases s.sim.mActiveOrders (names i) with
  | none => exact Nat.zero_le 2
  | some a => exact le_rfl

theorem Sound.mem_heldCells (h : s.Sound names q) (hp : s.sim.Held p) : p ∈ s.heldCells names := by
  obtain ⟨k, a, ha, hmem⟩ := hp
  obtain ⟨i, rfl⟩ := h.keys k a ha
  refine List.mem_flatMap.2 ⟨i, List.mem_finRange i, ?_⟩
  rw [ha]
  exact hmem

theorem exists_free {taken : List OrderPtr} (h : taken.length < orderPoolSize) :
    ∃ p < orderPoolSize, p ∉ taken := by
  by_contra hn
  have hall : List.range orderPoolSize ⊆ taken := fun p hp => by
    by_contra hfree
    exact hn ⟨p, List.mem_range.1 hp, hfree⟩
  have hle := (List.nodup_range.subperm hall).length_le
  rw [List.length_range] at hle
  omega

theorem Sound.cells (h : s.Sound names q) (hn : 2 * n + 2 ≤ orderPoolSize)
    (hp : s.sim.MayAnswer pool) : ∃ bid ask, pool = (some bid, some ask) ∧
      ¬ s.sim.Held bid.1 ∧ ¬ s.sim.Held ask.1 ∧ bid.1 ≠ ask.1 := by
  have hlength := s.length_heldCells names
  obtain ⟨bid?, ask?⟩ := pool
  obtain ⟨hbid, hask⟩ := hp
  cases bid? with
  | none =>
    obtain ⟨p, hlt, hfree⟩ : ∃ p < orderPoolSize, p ∉ s.heldCells names := exists_free (by omega)
    exact absurd (h.mem_heldCells (hbid p hlt)) hfree
  | some bid =>
    cases ask? with
    | none =>
      obtain ⟨p, hlt, hfree⟩ : ∃ p < orderPoolSize, p ∉ bid.1 :: s.heldCells names :=
        exists_free (by rw [List.length_cons]; omega)
      rcases hask p hlt with hh | hh
      · exact absurd (List.mem_cons_of_mem _ (h.mem_heldCells hh)) hfree
      · cases hh
        exact absurd List.mem_cons_self hfree
    | some ask =>
      obtain ⟨-, hask⟩ := hask
      exact ⟨bid, ask, rfl, hbid.2, fun hh => hask (.inl hh),
        fun he => hask (.inr (congrArg some he))⟩

end Cells

section Step

variable (h : s.Sound names q) (hnames : Function.Injective names)
include h hnames

theorem Sound.put (hr : SimulatorRun.Requoted q (s.run i) r x y a)
    (hfree : ∀ p ∈ a.cells, ¬ s.sim.Held p) : (s.put i r (some (x, y))).Sound names q := by
  have hname : (s.run i).engine.symbol = names i := h.symbol i
  have hactive : r.sim.mActiveOrders = Function.update s.sim.mActiveOrders (names i) (some a) := by
    rw [hr.active, hname]
    rfl
  refine ⟨fun j => ?_, ?_, fun j => ?_, fun k b hb => ?_, fun k k' b b' hb hb' hkk => ?_⟩
  · by_cases hj : j = i
    · subst hj
      rw [← hname, ← hr.symbol, ← congrArg SimulatorRun.engine (run_put_self s j r (some (x, y)))]
      rfl
    · rw [engines_put_other hj, h.symbol]
  · change r.sim.mRestingQuantity.toUInt32 = q
    rw [hr.resting]
    exact h.resting
  · by_cases hj : j = i
    · subst hj
      rw [run_put_self, quoted_put_self]
      exact hr.settled
    · have hne : names j ≠ names i := fun he => hj (hnames he)
      have hsymbol : (s.run j).engine.symbol = names j := h.symbol j
      obtain ⟨o, -, -, hmeta, -⟩ := hr.quoted
      rw [quoted_put_other hj]
      refine (h.settled j).frame (engines_put_other hj (some (x, y))) ?_ ?_ fun b hb p hp => ?_
      · change r.sim.mSymbolOrders _ = _
        rw [hmeta, hname, hsymbol, Function.update_of_ne hne]
        rfl
      · change r.sim.mActiveOrders _ = _
        rw [hactive, hsymbol, Function.update_of_ne hne]
        rfl
      · rw [hsymbol] at hb
        refine hr.kept p (fun hp' => hfree p hp' ⟨_, b, hb, hp⟩) fun old hold => ?_
        rw [hname] at hold
        exact h.apart _ _ b old hb hold hne p hp
  · change r.sim.mActiveOrders k = some b at hb
    rw [hactive] at hb
    by_cases hk : k = names i
    · exact ⟨i, hk.symm⟩
    · rw [Function.update_of_ne hk] at hb
      exact h.keys k b hb
  · change r.sim.mActiveOrders k = some b at hb
    change r.sim.mActiveOrders k' = some b' at hb'
    rw [hactive] at hb hb'
    intro p hp hp'
    by_cases hk : k = names i
    · subst hk
      rw [Function.update_self, Option.some.injEq] at hb
      rw [Function.update_of_ne hkk.symm] at hb'
      exact hfree p (hb ▸ hp) ⟨k', b', hb', hp'⟩
    · rw [Function.update_of_ne hk] at hb
      by_cases hk' : k' = names i
      · subst hk'
        rw [Function.update_self, Option.some.injEq] at hb'
        exact hfree p (hb' ▸ hp') ⟨k, b, hb, hp⟩
      · rw [Function.update_of_ne hk'] at hb'
        exact h.apart k k' b b' hb hb' hkk p hp hp'

theorem Sound.perform (hn : 2 * n + 2 ≤ orderPoolSize) (hq : q ≠ 0) (hc : s.Permitted c)
    (hp : s.sim.MayAnswer pool) : ∃ t, s.perform pool c = some t ∧ t.Sound names q := by
  obtain ⟨bid, ask, rfl, hbid, hask, hne⟩ := h.cells hn hp
  have hfree : ∀ p ∈ (⟨bid.1, ask.1⟩ : ActiveOrders).cells, ¬ s.sim.Held p := by
    intro p hp
    rcases List.mem_cons.1 hp with rfl | hp
    · exact hask
    · rw [List.mem_singleton.1 hp]
      exact hbid
  cases c with
  | init i initialPrice =>
    have hset := h.settled i
    rw [show s.quoted i = none from hc] at hset
    cases hset with
    | vacant ho ha hv =>
      obtain ⟨r, he, hr⟩ := SimulatorRun.initialize_requotes hv hne h.resting hq initialPrice
      exact ⟨_, by rw [Simulation.perform, he]; rfl, h.put hnames hr hfree⟩
  | update i x y =>
    have hset := h.settled i
    cases hlast : s.quoted i with
    | none =>
      rw [hlast] at hset
      cases hset with
      | vacant ho ha hv =>
        refine ⟨s, ?_, h⟩
        simp only [Simulation.perform, SimulatorRun.updateRestingOrders, ho, Option.map_some, hlast,
          Option.map_none]
        rw [← hlast, put_run]
    | some last =>
      rw [hlast] at hset
      cases hset with
      | @quoted o a ho ha hquoted =>
        by_cases hsame : o.currentBidPrice = x ∧ o.currentAskPrice = y
        · refine ⟨s, ?_, h⟩
          simp only [Simulation.perform, SimulatorRun.updateRestingOrders, ho, if_pos hsame,
            Option.map_some, hlast]
          rw [← hsame.1, ← hsame.2, ← hlast, put_run]
        · obtain ⟨r, he, hr⟩ := SimulatorRun.update_requotes ho ha hquoted hsame
            (Int64.ne_of_lt hc) hne h.resting hq
          refine ⟨_, ?_, h.put hnames hr hfree⟩
          rw [Simulation.perform, he, hlast]
          rfl

theorem Sound.step (hn : 2 * n + 2 ≤ orderPoolSize) (hq : q ≠ 0) (hs : Step s c t) :
    t.Sound names q := by
  cases hs with
  | call hc hp he =>
    obtain ⟨u, hu, hsound⟩ := h.perform hnames hn hq hc hp
    rw [he, Option.some.injEq] at hu
    exact hu ▸ hsound

end Step

theorem Sound.owned (h : s.Sound names q) : s.Owned := by
  have hcells : ∀ i, (∀ side, Bare (s.book i) side) ∧ (s.book i).mOrderIndex = (fun _ => none) ∨
      ∃ known, Stocked (s.book i) s.sim.orders known ∧ ∀ p ∈ known, s.sim.Held p := by
    intro i
    have hset := h.settled i
    generalize s.quoted i = last at hset
    cases hset with
    | vacant ho ha hv => exact .inl ⟨hv.bare, hv.index⟩
    | @quoted o a ho ha hq => exact .inr ⟨a.cells, hq.stocked, fun p hp => ⟨_, a, ha, hp⟩⟩
  refine ⟨fun i side l hl p hp => ?_, fun i id loc hi => ?_⟩
  · rcases hcells i with ⟨hb, -⟩ | ⟨known, hst, hheld⟩
    · rw [(hb side).levels] at hl
      cases hl
    · exact hheld p (hst.ringed side l hl p hp)
  · rcases hcells i with ⟨-, hb⟩ | ⟨known, hst, hheld⟩
    · rw [hb] at hi
      cases hi
    · exact hheld _ (hst.indexed id loc hi).1

theorem Sound.quotesAt (h : s.Sound names q) (hq : q ≠ 0) (hlast : s.quoted i = some (x, y)) :
    s.QuotesAt i x y q := by
  have hset := h.settled i
  rw [hlast] at hset
  cases hset with
  | @quoted o a ho ha hb =>
    refine ⟨o, ho, ?_, ?_, fun id => ?_⟩
    · exact hb.stocked.oneQuote hb.bid
        (by rw [hb.index, Function.update_of_ne hb.ids, Function.update_self])
        (hb.remaining _ a.bid_mem) hq hb.best
    · exact hb.stocked.oneQuote hb.ask (by rw [hb.index, Function.update_self])
        (hb.remaining _ a.ask_mem) hq hb.best
    · rw [show (s.book i).mOrderIndex = _ from hb.index]
      simp only [Function.update_apply]
      split_ifs with hask hbid
      · simp [hask]
      · simp [hbid]
      · simp [hask, hbid]

/-- In every run of calls on engines with different symbols, with a pool of two cells more than they
hold, every initialised engine shows one bid and one ask at the prices last set, nothing refers to a
released cell, and every further call returns. -/
theorem one_quote_per_side {symbols : Fin n → List UInt8} {shared : Fin n → Collaborators}
    {ts : List (Simulation n × SimulatorCall n × Simulation n)} (hn : 2 * n + 2 ≤ orderPoolSize)
    (hsymbols : Function.Injective (startSymbols symbols shared)) (hq : 0 < q)
    (h : Runs Step (start symbols shared q) ts s) :
    (∀ i bid ask, s.quoted i = some (bid, ask) → s.QuotesAt i bid ask q) ∧ s.Owned ∧
      ∀ c pool, s.Permitted c → s.sim.MayAnswer pool → ∃ t, s.perform pool c = some t := by
  have hq' : q ≠ 0 := UInt32.pos_iff_ne_zero.1 hq
  have hs : s.Sound (startSymbols symbols shared) q :=
    h.invariant (I := fun u => u.Sound (startSymbols symbols shared) q)
      (sound_start symbols shared q) fun u c t hu hstep => hu.step hsymbols hn hq' hstep
  refine ⟨fun i bid ask => hs.quotesAt hq', hs.owned, fun c pool hc hp => ?_⟩
  obtain ⟨t, he, -⟩ := hs.perform hsymbols hn hq' hc hp
  exact ⟨t, he⟩

/-- Two cells that are not held for the engines' symbols. -/
def Spare (s : Simulation n) (names : Fin n → List UInt8) (bid ask : OrderPtr) : Prop :=
  bid ≠ ask ∧ ∀ p ∈ [bid, ask], p < orderPoolSize ∧ p ∉ s.heldCells names

instance (s : Simulation n) (names : Fin n → List UInt8) (bid ask : OrderPtr) :
    Decidable (s.Spare names bid ask) := inferInstanceAs (Decidable (_ ∧ _))

theorem Sound.mayAnswer (h : s.Sound names q) {bid ask : OrderCell}
    (hspare : s.Spare names bid.1 ask.1) : s.sim.MayAnswer (some bid, some ask) := by
  obtain ⟨hne, hcells⟩ := hspare
  obtain ⟨hbid, hbid'⟩ := hcells bid.1 List.mem_cons_self
  obtain ⟨hask, hask'⟩ := hcells ask.1 (List.mem_cons_of_mem _ List.mem_cons_self)
  refine ⟨⟨hbid, fun hh => hbid' (h.mem_heldCells hh)⟩, hask, ?_⟩
  rintro (hh | hh)
  · exact hask' (h.mem_heldCells hh)
  · exact hne (Option.some.inj hh)

/-- A request for a call, with the two cells that the pool is to answer with. -/
abbrev CallWith (n : ℕ) := SimulatorCall n × OrderCell × OrderCell

instance (s : Simulation n) : (c : SimulatorCall n) → Decidable (s.Permitted c)
  | .init i _ => inferInstanceAs (Decidable (s.quoted i = none))
  | .update _ bidPrice askPrice => inferInstanceAs (Decidable (bidPrice < askPrice))

/-- Steps can be computed. -/
def attempt (names : Fin n → List UInt8) (s : Simulation n) (d : CallWith n) :
    Option (SimulatorCall n × Simulation n) :=
  if s.Permitted d.1 ∧ s.Spare names d.2.1.1 d.2.2.1 then
    (s.perform (some d.2.1, some d.2.2) d.1).map (d.1, ·)
  else none

theorem attempt_step (h : s.Sound names q) {d : CallWith n} (he : s.attempt names d = some (c, t)) :
    Step s c t := by
  rw [attempt] at he
  split at he
  · rename_i hok
    obtain ⟨hc, hspare⟩ := hok
    obtain ⟨u, hu, hx⟩ := Option.map_eq_some_iff.1 he
    obtain ⟨rfl, rfl⟩ := Prod.mk.inj hx
    exact .call hc (h.mayAnswer hspare) hu
  · cases he

theorem exists_run {symbols : Fin n → List UInt8} {shared : Fin n → Collaborators}
    (hn : 2 * n + 2 ≤ orderPoolSize)
    (hsymbols : Function.Injective (startSymbols symbols shared)) (hq : q ≠ 0)
    (ds : List (CallWith n))
    (ok : List (Simulation n × SimulatorCall n × Simulation n) → Simulation n → Bool)
    (h : (Runs.play (attempt (startSymbols symbols shared)) (start symbols shared q) ds).any
      (fun x => ok x.1 x.2) = true) :
    ∃ ts s, Runs Step (start symbols shared q) ts s ∧ ok ts s = true :=
  Runs.exists_of_play_of (I := fun u => u.Sound (startSymbols symbols shared) q)
    (sound_start symbols shared q)
    (fun _ _ _ _ hs he => ⟨attempt_step hs he, hs.step hsymbols hn hq (attempt_step hs he)⟩) h

/-- Two engines are initialised, the first is updated, and the second is updated with the cells that
the first has given back. -/
theorem one_quote_reused_cells : ∃ ts s, Runs Step (start ![[65], [66]] (fun _ => {}) 500) ts s ∧
    ts.length = 4 ∧ (s.sim.mActiveOrders [66]).map ActiveOrders.cells = some [1, 0] ∧
    s.QuotesAt 0 995 1015 500 ∧ s.QuotesAt 1 2005 2010 500 := by
  have hn : 2 * 2 + 2 ≤ orderPoolSize := by decide
  have hq : (500 : UInt32) ≠ 0 := by decide
  have hsymbols : Function.Injective (startSymbols ![[65], [66]] fun _ => {}) := by
    decide +kernel
  obtain ⟨ts, s, hr, hok⟩ := exists_run hn hsymbols hq
    [(.init 0 1000, (0, {}), (1, {})), (.init 1 2000, (2, {}), (3, {})),
      (.update 0 995 1015, (4, {}), (5, {})), (.update 1 2005 2010, (0, {}), (1, {}))]
    (fun ts s => ts.length == 4 && (s.sim.mActiveOrders [66]).map ActiveOrders.cells == some [1, 0]
      && s.quoted 0 == some (995, 1015) && s.quoted 1 == some (2005, 2010))
    (by decide +kernel)
  simp only [Bool.and_eq_true, beq_iff_eq] at hok
  obtain ⟨⟨⟨hlength, hcells⟩, hfirst⟩, hsecond⟩ := hok
  obtain ⟨hquotes, -⟩ := one_quote_per_side hn hsymbols (by decide) hr
  exact ⟨ts, s, hr, hlength, hcells, hquotes 0 _ _ hfirst, hquotes 1 _ _ hsecond⟩

end Simulation

end Velox
