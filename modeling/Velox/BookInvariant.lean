import Velox.BookStep

namespace Velox.OrderBook
set_option autoImplicit true

open Greedy PriceLevel

variable {b : OrderBook} {orders orders' : OrderHeap} {known : List OrderPtr} {p q : OrderPtr}
  {s s' : Bool} {u v t : BookRun} {fs : List Fill} {r : Option OrderPtr} {l m : LevelPtr}
  {id : UInt64} {loc : OrderLocation}

/-- Every ring can tell the slots it has in use from none: at most 127 of them. -/
def Roomy (b : OrderBook) : Prop := ∀ s, ∀ l ∈ b.levels s, (b.level l).occupied < maxOrders

/-- A book whose shelves hold known orders only, and whose index finds active ones of these by
their id. -/
structure Stocked (b : OrderBook) (orders : OrderHeap) (known : List OrderPtr) : Prop where
  shelves : Shelves b orders
  ringed : ∀ s, ∀ l ∈ b.levels s, ∀ p ∈ (b.level l).ring, p ∈ known
  indexed : ∀ id loc, b.mOrderIndex id = some loc → loc.orderPtr ∈ known ∧
    (orders loc.orderPtr).orderId = id ∧ (orders loc.orderPtr).isActive = true ∧
    (orders loc.orderPtr).price = loc.price ∧ (orders loc.orderPtr).isBuy = loc.isBid

/-- What holds of the book after any calls of `match` and `cancel_order`: `known` are the orders
that were handed to it. -/
structure Kept (b : OrderBook) (orders : OrderHeap) (known : List OrderPtr) : Prop where
  ladder : Ladder b orders
  ringed : ∀ s, ∀ l ∈ b.levels s, ∀ p ∈ (b.level l).ring, p ∈ known
  indexed : ∀ id loc, b.mOrderIndex id = some loc → loc.orderPtr ∈ known ∧
    (orders loc.orderPtr).orderId = id ∧ (orders loc.orderPtr).isActive = true ∧
    (orders loc.orderPtr).price = loc.price ∧ (orders loc.orderPtr).isBuy = loc.isBid
  best : b.updateBestPrices = b

/-- What holds besides as long as no ring has wrapped: nothing is lost or miscounted. -/
structure Intact (b : OrderBook) (orders : OrderHeap) (known : List OrderPtr) : Prop
    extends Kept b orders known where
  counted : ∀ s, ∀ l ∈ b.levels s, (b.level l).mSize = (b.level l).used
  exact : ∀ s, ∀ l ∈ b.levels s, (b.level l).Exact orders
  depth : ∀ s, b.depth s = UInt32.ofNat (total (b.sideQueue orders s))
  found : ∀ s, ∀ x ∈ b.sideQueue orders s, b.mOrderIndex (orders x.1).orderId =
    some { price := (orders x.1).price, isBid := s, orderPtr := x.1 }
  queued : ∀ p ∈ known, isLive orders p = true →
    (p, units orders p) ∈ b.sideQueue orders (orders p).isBuy

theorem sideQueue_new (symbol : List UInt8) (orders : OrderHeap) (s : Bool) :
    sideQueue { mSymbol := symbol } orders s = [] := by
  cases s <;> rfl

theorem intact_new (symbol : List UInt8) (orders : OrderHeap) :
    Intact { mSymbol := symbol } orders [] where
  ladder := ladder_new symbol orders
  ringed := fun s l hl => by cases s <;> cases hl
  indexed := fun id loc h => by cases h
  best := rfl
  counted := fun s l hl => by cases s <;> cases hl
  exact := fun s l hl => by cases s <;> cases hl
  depth := fun s => by cases s <;> rfl
  found := fun s x hx => by
    rw [sideQueue_new] at hx
    cases hx
  queued := fun p hp => by cases hp

theorem mem_sideQueue {x : OrderPtr × ℕ} : x ∈ b.sideQueue orders s ↔
    ∃ l ∈ b.levels s, x ∈ liveQueue orders (b.level l).ring := mem_queueOf

theorem Ladder.static_of_mem (h : Ladder b orders) {x : OrderPtr × ℕ}
    (hx : x ∈ b.sideQueue orders s) :
    (orders x.1).isBuy = s ∧ isLive orders x.1 = true ∧ x.2 = units orders x.1 := by
  obtain ⟨l, hl, hx⟩ := mem_sideQueue.1 hx
  obtain ⟨hr, hlive, hu⟩ := mem_liveQueue.1 hx
  exact ⟨(h.resting s l hl _ hr).1, hlive, hu⟩

theorem Ladder.sideQueue_nodup (h : Ladder b orders) (s : Bool) :
    ((b.sideQueue orders s).map Prod.fst).Nodup := by
  rw [sideQueue, queueOf, List.map_flatMap, List.nodup_flatMap]
  refine ⟨fun l hl => ?_, (h.nodup s).imp_of_mem fun hl hm hne => ?_⟩
  · rw [keys_liveQueue]
    exact (h.wf s l hl).nodup.filter _
  · rw [Function.onFun, List.disjoint_left]
    intro q hq hq'
    rw [keys_liveQueue, List.mem_filter] at hq hq'
    exact hne (h.ring_unique hl hm hq.1 hq'.1)

theorem Ladder.sideQueue_sorted (h : Ladder b orders) (s : Bool) :
    (b.sideQueue orders s).Pairwise fun x y =>
      ahead s (orders y.1).price (orders x.1).price = false := by
  have hprice : ∀ l ∈ b.levels s, ∀ x ∈ liveQueue orders (b.level l).ring,
      (orders x.1).price = b.priceAt l := fun l hl x hx =>
    (h.resting s l hl _ (mem_liveQueue.1 hx).1).2
  rw [sideQueue, queueOf, List.pairwise_flatMap]
  refine ⟨fun l hl => List.pairwise_of_forall_mem_list fun x hx y hy => ?_,
    (h.sorted s).imp_of_mem fun hl hm hahead x hx y hy => ?_⟩
  · rw [hprice l hl x hx, hprice l hl y hy, ahead_irrefl]
  · rw [hprice _ hl x hx, hprice _ hm y hy]
    exact ahead_asymm hahead

theorem Kept.stocked (h : Kept b orders known) : Stocked b orders known :=
  { h with shelves := h.ladder.shelves }

theorem Stocked.kept (h : Stocked b orders known) (hl : Ladder b orders)
    (hb : b.updateBestPrices = b) : Kept b orders known :=
  { h with
    ladder := hl
    best := hb }

theorem Stocked.unringed (h : Stocked b orders known) (hp : p ∉ known) : Unringed b p :=
  fun s l hl hr => hp (h.ringed s l hl p hr)

theorem Kept.unringed (h : Kept b orders known) (hp : p ∉ known) : Unringed b p :=
  h.stocked.unringed hp

section Relabel

variable (hsame : ∀ p ∈ known, (orders' p).orderId = (orders p).orderId ∧
    (orders' p).price = (orders p).price ∧ (orders' p).isBuy = (orders p).isBuy ∧
    (orders' p).remainingQuantity = (orders p).remainingQuantity)
  (hactive : ∀ p ∈ known, (orders' p).isActive = (orders p).isActive ∨
    ((orders' p).isActive = false ∧ units orders p = 0 ∧
      ∀ id loc, b.mOrderIndex id = some loc → loc.orderPtr ≠ p))
include hsame hactive

theorem relabel_live (hp : p ∈ known) :
    isLive orders' p = isLive orders p ∧ units orders' p = units orders p := by
  have hu : units orders' p = units orders p := by
    rw [units, units, (hsame p hp).2.2.2]
  refine ⟨?_, hu⟩
  rcases hactive p hp with ha | ⟨ha, hz, -⟩
  · rw [isLive, ha, (hsame p hp).2.2.2]
    rfl
  · rw [isLive, ha, Bool.false_and, eq_comm, ← Bool.not_eq_true, isLive_iff]
    omega

/-- Orders may change their status and whatever the book does not look at, as long as an order
that is done leaves no trace in the index. -/
theorem Stocked.relabel (h : Stocked b orders known) : Stocked b orders' known where
  shelves := h.shelves.orders_congr fun s l hl p hp => by
    have hk := h.ringed s l hl p hp
    refine ⟨(hsame p hk).2.2.1, (hsame p hk).2.1, fun ha => ?_⟩
    rcases hactive p hk with he | ⟨hf, -⟩
    · exact ⟨by rw [← he, ha], (relabel_live hsame hactive hk).2⟩
    · rw [hf] at ha
      cases ha
  ringed := h.ringed
  indexed := fun id loc hi => by
    obtain ⟨hk, hid, ha, hx, hs⟩ := h.indexed id loc hi
    obtain ⟨hid', hx', hs', -⟩ := hsame _ hk
    refine ⟨hk, hid'.trans hid, ?_, hx'.trans hx, hs'.trans hs⟩
    rcases hactive _ hk with he | ⟨-, -, hn⟩
    · rw [he, ha]
    · exact absurd rfl (hn id loc hi)

theorem Kept.relabel (h : Kept b orders known) : Kept b orders' known :=
  have hs := h.stocked.relabel hsame hactive
  hs.kept (hs.shelves.ladder h.ladder.uncrossed) h.best

theorem Kept.relabel_queue (h : Kept b orders known) (s : Bool) :
    b.sideQueue orders' s = b.sideQueue orders s :=
  queueOf_congr fun l hl => liveQueue_congr fun p hp =>
    relabel_live hsame hactive (h.ringed s l hl p hp)

theorem Intact.relabel (h : Intact b orders known) : Intact b orders' known where
  toKept := h.toKept.relabel hsame hactive
  counted := h.counted
  exact := fun s l hl => by
    rw [PriceLevel.Exact, liveQueue_congr fun p hp =>
      relabel_live hsame hactive (h.ringed s l hl p hp)]
    exact h.exact s l hl
  depth := fun s => by
    rw [h.toKept.relabel_queue hsame hactive]
    exact h.depth s
  found := fun s x hx => by
    rw [h.toKept.relabel_queue hsame hactive] at hx
    obtain ⟨l, hl, hx'⟩ := mem_sideQueue.1 hx
    obtain ⟨hid, hp, -⟩ := hsame _ (h.ringed s l hl _ (mem_liveQueue.1 hx').1)
    rw [hid, hp]
    exact h.found s x hx
  queued := fun p hp hlive => by
    obtain ⟨hl, hu⟩ := relabel_live hsame hactive hp
    rw [h.toKept.relabel_queue hsame hactive, (hsame p hp).2.2.1, hu]
    exact h.queued p hp (by rw [← hl, hlive])

end Relabel

end Velox.OrderBook
