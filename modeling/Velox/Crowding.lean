import Velox.Reference

namespace Velox
set_option autoImplicit true

open OrderBook PriceLevel

/-- A level at a price with at most so many ring slots that hold an order. -/
def PriceLevel.Crowd (n : ℕ) (x : Int64) (lvl : PriceLevel) : Prop :=
  lvl.occupied ≤ n ∧ lvl.mPrice = x

/-- No level holds more orders than its price allows for. -/
def OrderBook.Crowded (f : Int64 → ℕ) (b : OrderBook) : Prop :=
  ∀ l, (b.level l).occupied ≤ f (b.priceAt l)

/-- The number of orders handed to a book that name a price. -/
def arrived (orders : OrderHeap) (known : List OrderPtr) (x : Int64) : ℕ :=
  known.countP fun p => (orders p).price = x

namespace PriceLevel

variable {lvl : PriceLevel} {orders : OrderHeap} {n : ℕ} {x : Int64} {p q : OrderPtr}

theorem occupied_clear (lvl : PriceLevel) (i : Fin maxOrders) :
    ({ lvl with mBuffer := Function.update lvl.mBuffer i none }).occupied ≤ lvl.occupied := by
  refine List.countP_mono_left fun j _ hj => ?_
  change (Function.update lvl.mBuffer i none j).isSome = true at hj
  by_cases he : j = i
  · rw [he, Function.update_self] at hj
    cases hj
  · rwa [Function.update_of_ne he] at hj

theorem occupied_store (lvl : PriceLevel) (i : Fin maxOrders) (p : OrderPtr) :
    ({ lvl with mBuffer := Function.update lvl.mBuffer i (some p) }).occupied ≤ lvl.occupied + 1 := by
  have hsplit : ∀ js : List (Fin maxOrders), js.Nodup →
      js.countP (fun j => (Function.update lvl.mBuffer i (some p) j).isSome) ≤
        js.countP (fun j => (lvl.mBuffer j).isSome) + if i ∈ js then 1 else 0 := by
    intro js hjs
    induction js with
    | nil => exact Nat.zero_le _
    | cons j js ih =>
      obtain ⟨hj, hjs⟩ := List.nodup_cons.1 hjs
      have hrest := ih hjs
      rw [List.countP_cons, List.countP_cons]
      by_cases he : j = i
      · subst he
        rw [if_neg hj] at hrest
        rw [Function.update_self, if_pos List.mem_cons_self, Option.isSome_some, if_pos rfl]
        omega
      · have hmem : (i ∈ j :: js) ↔ i ∈ js := by
          rw [List.mem_cons, or_iff_right (Ne.symm he)]
        rw [Function.update_of_ne he, if_congr hmem rfl rfl]
        omega
  have hall := hsplit _ (List.nodup_finRange maxOrders)
  rwa [if_pos (List.mem_finRange i)] at hall

theorem Crowd.skipHead (h : lvl.Crowd n x) : lvl.skipHead.Crowd n x :=
  ⟨(occupied_clear lvl lvl.mHead).trans h.1, h.2⟩

theorem Crowd.popHead (h : lvl.Crowd n x) : lvl.popHead.Crowd n x := h.skipHead

theorem Crowd.addOrder (h : lvl.Crowd n x) (p : OrderPtr) (orders : OrderHeap) :
    (lvl.addOrder (some p) orders).Crowd (n + 1) x := by
  rw [PriceLevel.addOrder]
  split
  · exact ⟨h.1.trans n.le_succ, h.2⟩
  · exact ⟨(occupied_store lvl lvl.mTail p).trans (Nat.succ_le_succ h.1), h.2⟩

theorem advanceBody_crowd (lvl : PriceLevel) (r : PriceLevel ⊕ PriceLevel) (h : lvl.Crowd n x)
    (hr : advanceBody orders lvl = some r) : Sum.elim (Crowd n x) (Crowd n x) r := by
  rw [advanceBody] at hr
  split at hr
  · obtain rfl := Option.some.inj hr
    exact h
  · split at hr
    · obtain rfl := Option.some.inj hr
      exact h
    · obtain rfl := Option.some.inj hr
      exact h.popHead

theorem Crowd.advance (h : lvl.Crowd n x) : (lvl.advance orders).Crowd n x := by
  rw [PriceLevel.advance]
  cases hr : Loop.run (advanceBody orders) (lvl.used + 1) lvl with
  | none => exact h
  | some t => exact Loop.run_keeps advanceBody_crowd h hr

theorem Crowd.removeOrder (h : lvl.Crowd n x) (q : Option OrderPtr) (orders : OrderHeap) :
    (lvl.removeOrder q orders).1.Crowd n x := by
  cases q with
  | none => exact h
  | some q =>
    simp only [PriceLevel.removeOrder]
    split
    · exact h
    · split
      · exact Crowd.advance (n := n) (x := x) h
      · exact h

theorem fillHead_crowd {s : LevelRun} (h : s.level.Crowd n x) : (fillHead p q s).level.Crowd n x := by
  simp only [fillHead]
  split
  · dsimp only
    split
    · exact Crowd.popHead (n := n) (x := x) h
    · exact h
  · exact h

theorem matchOrderBody_crowd (s : LevelRun) (r : LevelRun ⊕ LevelRun) (h : s.level.Crowd n x)
    (hr : matchOrderBody p s = some r) :
    Sum.elim (fun t => t.level.Crowd n x) (fun t => t.level.Crowd n x) r := by
  have hlevel : (s.level.advance s.orders).Crowd n x := h.advance
  simp only [matchOrderBody] at hr
  split at hr
  · obtain rfl := Option.some.inj hr
    exact h
  · split at hr
    · obtain rfl := Option.some.inj hr
      exact hlevel
    · split at hr
      · obtain rfl := Option.some.inj hr
        exact hlevel.skipHead
      · split at hr
        · obtain rfl := Option.some.inj hr
          exact hlevel.skipHead
        · split at hr
          · obtain rfl := Option.some.inj hr
            exact fillHead_crowd (s := { s with level := s.level.advance s.orders }) hlevel
          · obtain rfl := Option.some.inj hr
            exact fillHead_crowd (s := { s with level := s.level.advance s.orders }) hlevel

theorem matchOrder_crowd {s t : LevelRun} {r : Option OrderPtr} (h : s.level.Crowd n x)
    (hm : matchOrder (some p) s = some (r, t)) : t.level.Crowd n x := by
  simp only [matchOrder] at hm
  split at hm
  · obtain ⟨-, rfl⟩ := Prod.mk.inj (Option.some.inj hm)
    exact h
  · rw [Option.map_eq_some_iff] at hm
    obtain ⟨u, hu, he⟩ := hm
    obtain ⟨-, rfl⟩ := Prod.mk.inj he
    exact Loop.run_keeps (I := fun s : LevelRun => s.level.Crowd n x) matchOrderBody_crowd h hu

end PriceLevel

namespace OrderBook

variable {b b' : OrderBook} {orders : OrderHeap} {f g : Int64 → ℕ} {p : OrderPtr} {isBid : Bool}
  {l : LevelPtr} {s t : BookRun}

theorem crowded_new (symbol : List UInt8) (f : Int64 → ℕ) : (OrderBook.new symbol).Crowded f :=
  fun _ => Nat.zero_le _

theorem Crowded.mono (h : b.Crowded f) (hfg : ∀ x, f x ≤ g x) : b.Crowded g :=
  fun l => (h l).trans (hfg _)

theorem Crowded.of_store (h : b.Crowded f) (hstore : b'.store = b.store) : b'.Crowded f :=
  fun l => by rw [priceAt, level_congr l hstore]; exact h l

theorem Crowded.setLevel (h : b.Crowded f) (l : LevelPtr) {lvl : PriceLevel}
    (hl : lvl.Crowd (f x) x) : (b.setLevel l lvl).Crowded f := by
  intro k
  by_cases hk : k = l
  · subst hk
    rw [priceAt, level_setLevel, hl.2]
    exact hl.1
  · rw [priceAt, level_setLevel_of_ne b l k lvl hk]
    exact h k

theorem Crowded.deleteLevel (h : b.Crowded f) (l : LevelPtr) : (b.deleteLevel l).Crowded f := by
  intro k
  by_cases hk : k = l
  · subst hk
    rw [priceAt, level, show (b.deleteLevel k).store k = none from Function.update_self ..]
    exact Nat.zero_le _
  · rw [priceAt, level_deleteLevel_of_ne b l k hk]
    exact h k

theorem Crowded.findOrInsert (h : b.Crowded f) (price : Int64) (isBid : Bool) :
    (b.findOrInsert price isBid).2.Crowded f := by
  rw [OrderBook.findOrInsert]
  split
  · exact h
  · have hnew : (b.newLevel price).2.Crowded f :=
      Crowded.of_store (h.setLevel b.nextLevel (x := price) ⟨Nat.zero_le _, rfl⟩) rfl
    exact hnew.of_store (store_setLevels _ _ _)

theorem Shelves.priceAt_findOrInsert (h : Shelves b orders) (price : Int64) (isBid : Bool) :
    (b.findOrInsert price isBid).2.priceAt (b.findOrInsert price isBid).1 = price := by
  rw [OrderBook.findOrInsert]
  cases hl : b.findLevel price isBid with
  | some l => exact ((h.mapped price l).1 hl).2
  | none =>
    have hstore : ((b.newLevel price).2.insertLevel (b.newLevel price).1 isBid).store =
        (b.newLevel price).2.store := store_setLevels _ _ _
    dsimp only
    rw [priceAt, level_congr _ hstore]
    exact congrArg PriceLevel.mPrice (level_setLevel b b.nextLevel { mPrice := price })

theorem Crowded.rest (h : b.Crowded f) (hb : Shelves b orders) (p : OrderPtr) (isBid : Bool) :
    (b.rest p isBid orders).Crowded
      (Function.update f (orders p).price (f (orders p).price + 1)) := by
  have hmono : ∀ x, f x ≤ Function.update f (orders p).price (f (orders p).price + 1) x := by
    intro x
    by_cases hx : x = (orders p).price
    · rw [hx, Function.update_self]
      exact Nat.le_succ _
    · rw [Function.update_of_ne hx]
  rw [OrderBook.rest]
  split
  · have hfound := h.findOrInsert (orders p).price isBid
    have hprice := hb.priceAt_findOrInsert (orders p).price isBid
    have hlevel := hfound (b.findOrInsert (orders p).price isBid).1
    rw [hprice] at hlevel
    have hadded := Crowd.addOrder (x := (orders p).price) ⟨hlevel, hprice⟩ p orders
    rw [← Function.update_self (orders p).price (f (orders p).price + 1) f] at hadded
    exact ((hfound.mono hmono).setLevel _ hadded).of_store (store_addDepth _ _ _)
  · exact h.mono hmono

theorem Crowded.remap (h : b.Crowded f) (m : Int64 → Option LevelPtr) :
    { b with mPriceToLevel := m }.Crowded f := h

theorem Crowded.setLevels (h : b.Crowded f) (ls : List LevelPtr) : (b.setLevels isBid ls).Crowded f :=
  h.of_store (store_setLevels b isBid ls)

theorem Crowded.subDepth (h : b.Crowded f) (q : UInt32) : (b.subDepth isBid q).Crowded f :=
  h.of_store (store_subDepth b isBid q)

theorem Crowded.dropFront (h : b.Crowded f) (l : LevelPtr) : (b.dropFront isBid l).Crowded f :=
  ((h.remap _).setLevels _).deleteLevel l

theorem Crowded.eraseIndex (h : b.Crowded f) (id : UInt64) : (b.eraseIndex id).Crowded f := h

theorem matchBody_crowded (s : BookRun) (r : BookRun ⊕ BookRun) (h : s.book.Crowded f)
    (hr : matchBody p isBid s = some r) :
    Sum.elim (fun t => t.book.Crowded f) (fun t => t.book.Crowded f) r := by
  simp only [matchBody] at hr
  split at hr
  · obtain rfl := Option.some.inj hr
    exact h
  · rename_i l _ _
    split at hr
    · obtain rfl := Option.some.inj hr
      exact h
    · split at hr
      · obtain rfl := Option.some.inj hr
        exact h
      · split at hr
        · obtain rfl := Option.some.inj hr
          exact h
        · rw [Option.map_eq_some_iff] at hr
          obtain ⟨⟨r', t⟩, hm, rfl⟩ := hr
          have ht := matchOrder_crowd (x := s.book.priceAt l) ⟨h l, rfl⟩ hm
          have hset := h.setLevel l ht
          rw [Sum.elim_inr]
          dsimp only
          split
          · exact (hset.subDepth _).dropFront l
          · exact hset.subDepth _

theorem Crowded.cancelOrder (h : b.Crowded f) (id : UInt64) (orders : OrderHeap) :
    (b.cancelOrder id orders).2.1.Crowded f := by
  rw [OrderBook.cancelOrder]
  cases b.mOrderIndex id with
  | none => exact h
  | some loc =>
    cases hl : b.findLevel loc.price loc.isBid with
    | none =>
      simp only [hl]
      exact h
    | some l =>
      simp only [hl]
      have hlevel : (b.level l).Crowd (f (b.priceAt l)) (b.priceAt l) := ⟨h l, rfl⟩
      have hset := h.setLevel l (hlevel.removeOrder (some loc.orderPtr) orders)
      refine Crowded.of_store (Crowded.eraseIndex (b := if _ then _ else _) ?_ id) rfl
      split
      · exact (((hset.subDepth _).remap _).setLevels _).deleteLevel l
      · exact hset.subDepth _

/-- A price of which there are fewer than 128 orders cannot fill a ring. -/
theorem Crowded.roomy (h : b.Crowded f) (hf : ∀ x, f x < maxOrders) : b.Roomy :=
  fun _ l _ => (h l).trans_lt (hf _)

end OrderBook

section Arrivals

variable {orders orders' : OrderHeap} {known : List OrderPtr} {p : OrderPtr} {x : Int64}

theorem arrived_congr (h : ∀ q ∈ known, (orders' q).price = (orders q).price) :
    arrived orders' known = arrived orders known := by
  funext x
  refine List.countP_congr fun q hq => ?_
  rw [h q hq]

theorem arrived_cons (orders : OrderHeap) (known : List OrderPtr) (p : OrderPtr) :
    arrived orders (p :: known) =
      Function.update (arrived orders known) (orders p).price
        (arrived orders known (orders p).price + 1) := by
  funext x
  rw [arrived, List.countP_cons]
  by_cases hx : x = (orders p).price
  · subst hx
    rw [Function.update_self, decide_eq_true rfl, if_pos rfl]
    rfl
  · rw [Function.update_of_ne hx, decide_eq_false (Ne.symm hx), if_neg Bool.false_ne_true]
    rfl

theorem arrived_le_cons (p : OrderPtr) (x : Int64) :
    arrived orders known x ≤ arrived orders (p :: known) x :=
  (List.sublist_cons_self p known).countP_le

end Arrivals

namespace Session

variable {s t u : Session} {p : OrderPtr} {o : Order} {e : BookEvent} {f : Int64 → ℕ}
  {ts : List (Session × BookEvent × Session)}

/-- No more orders came to rest at a price than were handed in at that price. -/
def Counted (s : Session) : Prop := s.book.Crowded (arrived s.orders s.known)

theorem counted_start (symbol : List UInt8) : (start symbol).Counted := crowded_new symbol _

theorem Kept.match_crowded (h : s.Kept) (hp : p ∉ s.known) (hf : s.book.Crowded f)
    {r : Option OrderPtr} {u : BookRun} (hm : OrderBook.match (some p) (s.call p o) = some (r, u)) :
    u.book.Crowded (Function.update f o.price (f o.price + 1)) := by
  rcases h.match_cases hp hm with ⟨-, rfl, -⟩ | ⟨-, ⟨v, fs, hpr, -⟩, -⟩
  · refine Crowded.mono (show (s.call p o).book.Crowded f from hf) fun x => ?_
    by_cases hx : x = o.price
    · rw [hx, Function.update_self]
      exact Nat.le_succ _
    · rw [Function.update_of_ne hx]
  · obtain ⟨n, hn⟩ := hpr.loop
    have hv : v.book.Crowded f :=
      Loop.run_keeps (I := fun w : BookRun => w.book.Crowded f) matchBody_crowded hf hn
    have hrest := hv.rest hpr.crossed.ladder.shelves p o.isBuy
    rw [hpr.crossed.static (g := Order.price) (fun _ _ => rfl), call_self] at hrest
    rw [hpr.book]
    exact hrest

theorem Kept.match_static (h : s.Kept) (hp : p ∉ s.known) {r : Option OrderPtr} {u : BookRun}
    (hm : OrderBook.match (some p) (s.call p o) = some (r, u)) {g : Order → α}
    (hg : ∀ o q, g (o.trade q) = g o) (q : OrderPtr) : g (u.orders q) = g (s.write p o q) := by
  rw [(h.match_fills hp hm).1]
  exact replay_static hg p _ _ q

theorem Step.counted (hs : Step s e t) (h : s.Kept) (hc : s.Counted) :
    t.Counted ∧ ∀ x, arrived s.orders s.known x ≤ arrived t.orders t.known x := by
  cases hs with
  | @«match» p o _ u r hp hid ho hm =>
    have hprice : ∀ q, (u.orders q).price = (s.write p o q).price :=
      h.match_static hp hm (g := Order.price) fun _ _ => rfl
    have hknown : arrived u.orders s.known = arrived s.orders s.known :=
      arrived_congr fun q hq => by rw [hprice, write_known hp o hq]
    have hself : (u.orders p).price = o.price := by rw [hprice, write_self]
    refine ⟨?_, fun x => ?_⟩
    · change u.book.Crowded (arrived u.orders (p :: s.known))
      rw [arrived_cons, hknown, hself]
      exact h.match_crowded hp hc hm
    · change _ ≤ arrived u.orders (p :: s.known) x
      rw [← hknown]
      exact arrived_le_cons p x
  | cancel id =>
    have hknown : arrived (s.book.cancelOrder id s.orders).2.2 s.known = arrived s.orders s.known :=
      arrived_congr fun q _ => OrderBook.Kept.cancel_static h id (g := Order.price) (fun _ => rfl) q
    refine ⟨?_, fun x => ?_⟩
    · change (s.book.cancelOrder id s.orders).2.1.Crowded
        (arrived (s.book.cancelOrder id s.orders).2.2 s.known)
      rw [hknown]
      exact Crowded.cancelOrder hc id s.orders
    · exact (congrFun hknown x).ge

/-- As long as fewer than 128 orders name the same price, no ring overflows: every match draws on the
orders that the naive book's does and returns what that returns, and the live orders are the naive
book's. -/
theorem few_orders_refine {symbol : List UInt8} (h : Runs Step (start symbol) ts s)
    (hfew : ∀ x, arrived s.orders s.known x < maxOrders) : Runs RoomyStep (start symbol) ts s ∧
    Runs.transduce RefBook.step {} (ts.map fun x => x.2.1.request) =
      (s.reference, ts.map fun x => x.2.1.answer) := by
  have hroomy : s.Kept ∧ s.Counted ∧ Runs RoomyStep (start symbol) ts s := by
    induction h with
    | nil => exact ⟨kept_start symbol, counted_start symbol, .nil⟩
    | @snoc ts s e t h hs ih =>
      have hk := kept_of_runs h
      have hcount : s.Counted := h.invariant
        (I := fun u => u.Kept ∧ u.Counted) ⟨kept_start symbol, counted_start symbol⟩
        (fun _ _ _ hu hst => ⟨hst.kept hu.1, (hst.counted hu.1 hu.2).1⟩) |>.2
      obtain ⟨hcount', hle⟩ := hs.counted hk hcount
      obtain ⟨-, -, hruns⟩ := ih fun x => (hle x).trans_lt (hfew x)
      exact ⟨hs.kept hk, hcount', hruns.snoc ⟨hs, Crowded.roomy hcount' hfew⟩⟩
  refine ⟨hroomy.2.2, ?_⟩
  rw [← reference_start symbol]
  exact hroomy.2.2.simulates (intact_start symbol) fun s e t hi hs => ⟨hs.intact hi, hs.refines hi⟩

theorem few_orders_refine_sweep : ∃ ts s, Runs Step (start []) ts s ∧
    (ts.map fun x => x.2.1.answer) = [([], some 1), ([], some 2), ([], none), ([(2, 4), (1, 3)], none)] ∧
    Runs.transduce RefBook.step {} (ts.map fun x => x.2.1.request) =
      (s.reference, ts.map fun x => x.2.1.answer) := by
  obtain ⟨ts, s, hr, hok⟩ := exists_run []
    [.match 1 (.limit 1 .SELL 101 5), .match 2 (.limit 2 .SELL 100 4), .cancel 7,
      .match 4 (.limit 4 .BUY 101 7)]
    (fun ts s => ((ts.map fun x => x.2.1.answer) = [([], some 1), ([], some 2), ([], none),
      ([(2, 4), (1, 3)], none)]) && decide (s.known.length < maxOrders)) (by decide +kernel)
  rw [Bool.and_eq_true, decide_eq_true_eq, decide_eq_true_eq] at hok
  exact ⟨ts, s, hr, hok.1, (few_orders_refine hr fun x => List.countP_le_length.trans_lt hok.2).2⟩

end Session

end Velox
