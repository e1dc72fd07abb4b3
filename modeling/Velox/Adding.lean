import Velox.BookSession

namespace Velox
set_option autoImplicit true

open OrderBook PriceLevel

namespace OrderBook

/-- `m_best_bid` or `m_best_ask`. -/
def bestPrice (b : OrderBook) (isBid : Bool) : Int64 := if isBid then b.mBestBid else b.mBestAsk

/-- The order is the last entry of a level at its price on its own side, whose depth has grown by
its remaining quantity and whose best price is no worse, and the other side is as before. -/
structure AddedTo (b b' : OrderBook) (p : OrderPtr) (o : Order) : Prop where
  queued : ∃ l ∈ b'.levels o.isBuy, b'.priceAt l = o.price ∧ (b'.level l).ring.getLast? = some p
  depth : (b'.depth o.isBuy).toNat = (b.depth o.isBuy).toNat + o.remainingQuantity.toNat
  best : ahead o.isBuy o.price (b'.bestPrice o.isBuy) = false
  levels_other : b'.levels (!o.isBuy) = b.levels (!o.isBuy)
  level_other : ∀ l ∈ b.levels (!o.isBuy), b'.level l = b.level l
  depth_other : b'.depth (!o.isBuy) = b.depth (!o.isBuy)
  best_other : b'.bestPrice (!o.isBuy) = b.bestPrice (!o.isBuy)

/-- The order has something to fill, its price is that of no level of the other side, the ring at
its price has a free slot, and the depth of its side has room for it. -/
def Placeable (b : OrderBook) (o : Order) : Prop :=
  o.remainingQuantity ≠ 0 ∧ (∀ l ∈ b.levels (!o.isBuy), b.priceAt l ≠ o.price) ∧
  (∀ l ∈ b.levels o.isBuy, b.priceAt l = o.price → (b.level l).used + 1 < maxOrders) ∧
  (b.depth o.isBuy).toNat + o.remainingQuantity.toNat < 2 ^ 32

instance (b : OrderBook) (o : Order) : Decidable (b.Placeable o) := by
  unfold Placeable
  infer_instance

variable {b b' : OrderBook} {orders : OrderHeap} {known : List OrderPtr} {p : OrderPtr} {s : Bool}
  {l : LevelPtr} {lvl : PriceLevel} {A B : List LevelPtr}

theorem addOrder_level (b : OrderBook) (orders : OrderHeap) (p : OrderPtr) :
    (b.addOrder (some p) orders).2.level (b.findOrInsert (orders p).price (orders p).isBuy).1 =
      ((b.findOrInsert (orders p).price (orders p).isBuy).2.level
        (b.findOrInsert (orders p).price (orders p).isBuy).1).addOrder (some p) orders := by
  rw [level, addOrder]
  simp only [store_bumpSequence, store_updateBestPrices, store_addDepth, store_setIndex, setLevel,
    Function.update_self, Option.getD_some]

theorem addOrder_level_other (h : l ≠ (b.findOrInsert (orders p).price (orders p).isBuy).1) :
    (b.addOrder (some p) orders).2.level l =
      (b.findOrInsert (orders p).price (orders p).isBuy).2.level l := by
  rw [level, addOrder]
  simp only [store_bumpSequence, store_updateBestPrices, store_addDepth, store_setIndex, setLevel,
    Function.update_of_ne h]
  rfl

theorem addOrder_levels (b : OrderBook) (orders : OrderHeap) (p : OrderPtr) (s : Bool) :
    (b.addOrder (some p) orders).2.levels s =
      (b.findOrInsert (orders p).price (orders p).isBuy).2.levels s := by
  simp only [addOrder, levels_bumpSequence, levels_updateBestPrices, levels_addDepth,
    levels_setIndex, levels_setLevel]

theorem addOrder_depth (b : OrderBook) (orders : OrderHeap) (p : OrderPtr) :
    (b.addOrder (some p) orders).2.depth (orders p).isBuy =
      b.depth (orders p).isBuy + (orders p).remainingQuantity := by
  rw [← depth_findOrInsert b (orders p).price (orders p).isBuy (orders p).isBuy]
  exact depth_addDepth _ _ _

theorem level_findOrInsert (b : OrderBook) (x : Int64) (s : Bool) (l : LevelPtr) :
    (b.findOrInsert x s).2.level l = b.level l ∨
      (b.findOrInsert x s).2.level l = { mPrice := x } := by
  rw [findOrInsert]
  cases b.findLevel x s with
  | some m => exact .inl rfl
  | none =>
    simp only [insertLevel, level_congr _ (store_setLevels _ _ _)]
    by_cases hl : l = b.nextLevel
    · exact .inr (hl ▸ level_setLevel b b.nextLevel _)
    · exact .inl (level_setLevel_of_ne b b.nextLevel l _ hl)

theorem Shelves.findOrInsert_of_mem (h : Shelves b orders) (hl : l ∈ b.levels s) {x : Int64}
    (hx : b.priceAt l = x) (s' : Bool) : b.findOrInsert x s' = (l, b) := by
  rw [findOrInsert, findLevel, (h.mapped x l).2 ⟨⟨s, hl⟩, hx⟩]

/-- An order with something to fill goes where `match` puts what is left of one. -/
theorem addOrder_eq_rest (hq : (orders p).remainingQuantity ≠ 0) : b.addOrder (some p) orders =
    (true, (b.rest p (orders p).isBuy orders).updateBestPrices.bumpSequence) := by
  have hpos : (orders p).remainingQuantity > 0 := UInt32.pos_iff_ne_zero.2 hq
  rw [rest, addOrder]
  simp only [hpos, if_true]
  cases (orders p).isBuy <;> rfl

theorem bestPrice_updateBestPrices (b : OrderBook) (s : Bool) : b.updateBestPrices.bestPrice s =
    match b.levels s with
    | [] => if s then 0 else Int64.maxValue
    | l :: _ => b.priceAt l := by
  cases s
  · cases h : b.mAskLevels <;> simp [bestPrice, updateBestPrices, levels, h, price, priceAt]
  · cases h : b.mBidLevels <;> simp [bestPrice, updateBestPrices, levels, h, price, priceAt]

theorem bestPrice_congr (hl : b'.levels s = b.levels s)
    (hlevel : ∀ l ∈ b.levels s, b'.level l = b.level l) :
    b'.updateBestPrices.bestPrice s = b.updateBestPrices.bestPrice s := by
  rw [bestPrice_updateBestPrices, bestPrice_updateBestPrices, hl]
  cases hls : b.levels s with
  | nil => rfl
  | cons l ls => simp only [priceAt, hlevel l (hls ▸ List.mem_cons_self)]

theorem Shelves.best_le (h : Shelves b orders) (hl : l ∈ b.levels s) :
    ahead s (b.priceAt l) (b.updateBestPrices.bestPrice s) = false := by
  rw [bestPrice_updateBestPrices]
  cases hls : b.levels s with
  | nil =>
    rw [hls] at hl
    cases hl
  | cons m ms =>
    have hsorted := h.sorted s
    rw [hls] at hl hsorted
    rcases List.mem_cons.1 hl with rfl | hl
    · exact ahead_irrefl s _
    · exact ahead_asymm ((List.pairwise_cons.1 hsorted).1 l hl)

theorem Stocked.not_mem_ring (h : Stocked b orders known) (hp : p ∉ known) (l : LevelPtr) :
    p ∉ (b.level l).ring := by
  cases hl : b.store l with
  | none =>
    rw [level, hl]
    exact List.not_mem_nil
  | some lvl =>
    obtain ⟨s, hs⟩ := h.shelves.stored l (by rw [hl]; exact Option.some_ne_none _)
    exact h.unringed hp s l hs

section Added

variable (h : Stocked b orders known) (hp : p ∉ known)
include h hp

theorem Stocked.added (hact : (orders p).isActive = true) (hbest : b.updateBestPrices = b)
    (hok : b.Placeable (orders p)) :
    Stocked (b.addOrder (some p) orders).2 orders (p :: known) ∧
      (b.addOrder (some p) orders).1 = true ∧
      AddedTo b (b.addOrder (some p) orders).2 p (orders p) := by
  obtain ⟨hne, hout, hroom, hfits⟩ := hok
  have hpos : 0 < units orders p := Nat.pos_of_ne_zero fun hz => hne (units_eq_zero_iff.1 hz)
  obtain ⟨l, lvl, A, B, hr⟩ := h.shelves.rested hout hpos
  have hst := h.rested hp rfl hact hpos hr
  have hmem : l ∈ (b.rest p (orders p).isBuy orders).levels (orders p).isBuy := by
    rw [hr.placed.levels]
    exact List.mem_append_right _ List.mem_cons_self
  have hprice : (b.rest p (orders p).isBuy orders).priceAt l = (orders p).price := by
    rw [priceAt, hr.placed.level_self, addOrder_eq hne]
    exact hr.placed.price
  have hfree : lvl.used + 1 < maxOrders := by
    rcases hr.placed.before with ⟨hb, hlvl⟩ | ⟨-, -, hlvl, -⟩
    · rw [hlvl]
      refine hroom l (hb ▸ List.mem_append_right _ List.mem_cons_self) ?_
      rw [priceAt, ← hlvl]
      exact hr.placed.price
    · rw [hlvl, used_new]
      decide
  have hother : ∀ m ∈ b.levels (!(orders p).isBuy),
      (b.rest p (orders p).isBuy orders).level m = b.level m := by
    intro m hm
    rw [← hr.placed.other] at hm
    rcases hr.mem h.shelves hm with ⟨hs, -⟩ | ⟨hml, -⟩
    · exact absurd hs (Bool.not_ne_self _)
    · exact hr.placed.level_other hml
  rw [addOrder_eq_rest hne]
  refine ⟨hst.of_eq, rfl, ⟨l, hmem, hprice, ?_⟩, ?_, ?_, hr.placed.other, hother, hr.depth_other, ?_⟩
  · change ((b.rest p (orders p).isBuy orders).level l).ring.getLast? = _
    rw [hr.placed.level_self, ring_addOrder hne hfree, List.getLast?_concat]
  · change ((b.rest p (orders p).isBuy orders).depth _).toNat = _
    rw [hr.depth, UInt32.toNat_add, Nat.mod_eq_of_lt hfits]
  · rw [← hprice]
    exact hst.shelves.best_le hmem
  · rw [← congrArg (fun b => b.bestPrice (!(orders p).isBuy)) hbest]
    exact bestPrice_congr hr.placed.other hother

theorem Stocked.mem_ring_added (hl : p ∈ ((b.addOrder (some p) orders).2.level l).ring) :
    l = (b.findOrInsert (orders p).price (orders p).isBuy).1 ∧ (orders p).remainingQuantity ≠ 0 ∧
    ((b.findOrInsert (orders p).price (orders p).isBuy).2.level l).used + 1 < maxOrders := by
  have hold : p ∉ ((b.findOrInsert (orders p).price (orders p).isBuy).2.level l).ring := by
    rcases level_findOrInsert b (orders p).price (orders p).isBuy l with he | he
    · rw [he]
      exact h.not_mem_ring hp l
    · rw [he, ring_new]
      exact List.not_mem_nil
  by_cases he : l = (b.findOrInsert (orders p).price (orders p).isBuy).1
  · subst he
    rw [addOrder_level] at hl
    by_cases hz : (orders p).remainingQuantity = 0
    · rw [PriceLevel.addOrder, if_pos hz] at hl
      exact absurd hl hold
    · refine ⟨rfl, hz, ?_⟩
      have hlt : ((b.findOrInsert (orders p).price (orders p).isBuy).2.level
        (b.findOrInsert (orders p).price (orders p).isBuy).1).used < maxOrders := Ring.used_lt _ _
      by_contra hfull
      rw [ring_addOrder_full hz (by omega)] at hl
      cases hl
  · rw [addOrder_level_other he] at hl
    exact absurd hl hold

theorem Stocked.placeable (ha : AddedTo b (b.addOrder (some p) orders).2 p (orders p)) :
    b.Placeable (orders p) := by
  obtain ⟨l, hl, -, hlast⟩ := ha.queued
  obtain ⟨rfl, hne, hroom⟩ := h.mem_ring_added hp (List.mem_of_getLast? hlast)
  refine ⟨hne, fun m hm hx => ?_, fun m hm hx => ?_, ?_⟩
  · rw [addOrder_levels, h.shelves.findOrInsert_of_mem hm hx] at hl
    exact h.shelves.apart _ m hl hm
  · rwa [h.shelves.findOrInsert_of_mem hm hx] at hroom
  · rw [← ha.depth]
    exact UInt32.toNat_lt _

end Added

end OrderBook

inductive AddEvent
  | add (p : OrderPtr) (o : Order) (result : Bool)
  | other (e : BookEvent)

namespace Session

def added (s : Session) (p : OrderPtr) (o : Order) : Bool × OrderBook :=
  s.book.addOrder (some p) (s.write p o)

/-- One call of `add_order` or `match` with a fresh order whose id is new, or of `cancel_order` with
any id. -/
inductive AddStep : Session → AddEvent → Session → Prop
  | add {s : Session} (hp : p ∉ s.known) (hid : ∀ q ∈ s.known, (s.orders q).orderId ≠ o.orderId)
      (ho : o.Fresh) :
      AddStep s (.add p o (s.added p o).1) ⟨(s.added p o).2, s.write p o, p :: s.known⟩
  | other (h : Step s e t) : AddStep s (.other e) t

/-- A call of `add_order` that rests the order on its own side, or refuses it without effect. -/
def Rests (x : Session × AddEvent × Session) : Prop :=
  ∀ p o r, x.2.1 = .add p o r → (r = false ∧ x.2.2.book = x.1.book) ∨
    (r = true ∧ AddedTo x.1.book x.2.2.book p o)

/-- A call of `add_order` with an order that the book can place. -/
def Places (x : Session × AddEvent × Session) : Prop :=
  ∀ p o r, x.2.1 = .add p o r → x.1.book.Placeable o

/-- The invariant of the book, crossed or not. -/
def Stocked (s : Session) : Prop :=
  s.book.Stocked s.orders s.known ∧ s.book.updateBestPrices = s.book

variable {s t : Session} {p : OrderPtr} {o : Order} {a : AddEvent} {e : BookEvent}

theorem Stocked.write (h : s.Stocked) (hp : p ∉ s.known) (o : Order) :
    s.book.Stocked (s.write p o) s.known :=
  h.1.relabel (fun q hq => by rw [write_known hp o hq]; exact ⟨rfl, rfl, rfl, rfl⟩)
    fun q hq => by rw [write_known hp o hq]; exact .inl rfl

theorem Stocked.step (h : s.Stocked) (hs : Step s e t) : t.Stocked := by
  cases hs with
  | @«match» p o _ u r hp hid ho hm =>
    have hself : (s.call p o).orders p = o := call_self s p o
    have hw : (s.call p o).book.Stocked (s.call p o).orders s.known := h.write hp o
    rcases Nat.eq_zero_or_pos (units (s.call p o).orders p) with hz | hq
    · rw [match_nothing hz] at hm
      cases hm
      exact ⟨hw.mono p, h.2⟩
    · rw [match_eq hq, Option.map_eq_some_iff] at hm
      obtain ⟨v, hv, he⟩ := hm
      cases he
      obtain ⟨hsh, hset⟩ := matchLoop_shelved hw.shelves (hw.unringed hp) hv
      exact ⟨hsh.stocked hset hw hp rfl (by rw [hself, ho.active]), rfl⟩
  | cancel id =>
    refine ⟨h.1.cancel id, ?_⟩
    rcases h.1.cancel_cases id with ⟨-, he⟩ | ⟨loc, -, -, he⟩ | ⟨loc, l, s, lvl, -, -, -, -, he⟩
    · rw [he]
      exact h.2
    · rw [he]
      exact congrArg (fun b => b.eraseIndex id) h.2
    · rw [he]
      rfl

theorem Stocked.addStep (h : s.Stocked) (hs : AddStep s a t) (hok : Places (s, a, t)) :
    t.Stocked ∧ Rests (s, a, t) := by
  cases hs with
  | @add p o _ hp hid ho =>
    have hself : s.write p o p = o := write_self s p o
    obtain ⟨hst, htrue, hadded⟩ := (h.write hp o).added hp (by rw [hself, ho.active]) h.2
      (by rw [hself]; exact hok p o _ rfl)
    rw [hself] at hadded
    refine ⟨⟨hst, rfl⟩, ?_⟩
    rintro p o r ⟨⟩
    exact .inr ⟨htrue, hadded⟩
  | other hs =>
    refine ⟨h.step hs, ?_⟩
    rintro p o r ⟨⟩

theorem Stocked.places (h : s.Stocked) (hs : AddStep s a t) (hr : Rests (s, a, t)) :
    Places (s, a, t) := by
  cases hs with
  | @add p o _ hp hid ho =>
    have hself : s.write p o p = o := write_self s p o
    rintro p o r ⟨⟩
    rcases hr p o _ rfl with ⟨hf, -⟩ | ⟨-, ha⟩
    · cases hf
    · have hok := (h.write hp o).placeable hp (by rw [hself]; exact ha)
      rwa [hself] at hok
  | other hs => rintro p o r ⟨⟩

theorem stocked_start (symbol : List UInt8) : (start symbol).Stocked :=
  ⟨(kept_start symbol).stocked, rfl⟩

end Session

/-- In every run every call of `add_order` rests its order on its own side exactly when every order
added has something to fill, has no level of the other side at its price, finds a free slot in the
ring at its price and fits into the depth of its side. -/
theorem add_order_rests_iff {symbol : List UInt8} (h : Runs Session.AddStep (.start symbol) ts s) :
    (∀ x ∈ ts, Session.Rests x) ↔ ∀ x ∈ ts, Session.Places x :=
  h.each_iff (Session.stocked_start symbol) (fun _ _ _ hi hr hc => hi.addStep hr hc)
    fun _ _ _ hi hr hp => hi.places hr hp

namespace Session

inductive AddCall
  | add (p : OrderPtr) (o : Order)
  | other (c : Call)

def addPerform (s : Session) : AddCall → Option (AddEvent × Session)
  | .add p o =>
    if p ∉ s.known ∧ (∀ q ∈ s.known, (s.orders q).orderId ≠ o.orderId) ∧ o.Fresh then
      some (.add p o (s.added p o).1, ⟨(s.added p o).2, s.write p o, p :: s.known⟩)
    else none
  | .other c => (s.perform c).map fun x => (.other x.1, x.2)

theorem addPerform_step {s t : Session} {a : AddEvent} {c : AddCall}
    (h : s.addPerform c = some (a, t)) : AddStep s a t := by
  cases c with
  | add p o =>
    simp only [addPerform] at h
    split at h
    · rename_i hok
      cases h
      exact .add hok.1 hok.2.1 hok.2.2
    · cases h
  | other c =>
    obtain ⟨⟨e, u⟩, he, hx⟩ := Option.map_eq_some_iff.1 h
    cases hx
    exact .other (perform_step he)

theorem exists_addRun (cs : List AddCall)
    (ok : List (Session × AddEvent × Session) → Session → Bool)
    (h : (Runs.play addPerform (start []) cs).any (fun x => ok x.1 x.2) = true) :
    ∃ ts s, Runs AddStep (start []) ts s ∧ ok ts s = true :=
  Runs.exists_of_play (fun _ _ _ _ => addPerform_step) h

/-- Two orders added on the two sides at different prices, the bid above the ask, a match and a
cancel. -/
theorem add_order_rests_crossed : ∃ ts s, Runs AddStep (start []) ts s ∧ ts.length = 4 ∧
    s.book.mBestBid = 105 ∧ ∀ x ∈ ts, Rests x := by
  obtain ⟨ts, s, h, hok⟩ := exists_addRun
    [.add 0 (.limit 1 .SELL 100 5), .add 1 (.limit 2 .BUY 105 3),
      .other (.match 2 (.limit 3 .BUY 101 2)), .other (.cancel 1)]
    (fun ts s => (ts.length == 4 && s.book.mBestBid == 105) && ts.all fun x =>
      match x.2.1 with
      | .add _ o _ => decide (x.1.book.Placeable o)
      | .other _ => true)
    (by decide +kernel)
  simp only [Bool.and_eq_true, beq_iff_eq, List.all_eq_true] at hok
  refine ⟨ts, s, h, hok.1.1, hok.1.2, (add_order_rests_iff h).2 fun x hx p o r he => ?_⟩
  have hx := hok.2 x hx
  rw [he] at hx
  exact of_decide_eq_true hx

/-- A bid at the price of a resting ask is put into the ask's level. -/
theorem bid_added_to_ask_level : ∃ ts s, Runs AddStep (start []) ts s ∧ s.book.mBidLevels = [] ∧
    s.book.mBidDepth = 3 ∧ ¬ ∀ x ∈ ts, Rests x := by
  obtain ⟨ts, s, h, hok⟩ := exists_addRun
    [.add 0 (.limit 1 .SELL 100 5), .add 1 (.limit 2 .BUY 100 3)]
    (fun ts s => (s.book.mBidLevels == [] && s.book.mBidDepth == 3) && ts.any fun x =>
      match x.2.1 with
      | .add _ o r => r && (x.2.2.book.levels o.isBuy).isEmpty
      | .other _ => false)
    (by decide +kernel)
  simp only [Bool.and_eq_true, beq_iff_eq, List.any_eq_true] at hok
  obtain ⟨⟨hlevels, hdepth⟩, x, hx, hbad⟩ := hok
  refine ⟨ts, s, h, hlevels, hdepth, fun hall => ?_⟩
  have hr := hall x hx
  obtain ⟨u, a, v⟩ := x
  cases a with
  | add p o r =>
    simp only [Bool.and_eq_true, List.isEmpty_iff] at hbad
    rcases hr p o r rfl with ⟨hf, -⟩ | ⟨-, ha⟩
    · rw [hbad.1] at hf
      cases hf
    · obtain ⟨l, hl, -⟩ := ha.queued
      rw [hbad.2] at hl
      cases hl
  | other e => cases hbad

end Session

end Velox
