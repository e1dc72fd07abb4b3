import Velox.BookSession

namespace Velox
set_option autoImplicit true

open Greedy OrderBook PriceLevel

/-- What the reference book knows of a resting order. -/
structure Ticket where
  order : OrderPtr
  id : UInt64
  price : Int64
  deriving DecidableEq

/-- A naive price-time-priority book: one plain list per side, best price first, oldest first. -/
@[ext] structure RefBook where
  bids : List (Ticket × ℕ) := []
  asks : List (Ticket × ℕ) := []

inductive RefRequest
  | match (t : Ticket) (isBid : Bool) (quantity : ℕ)
  | cancel (id : UInt64)

namespace RefBook

def side (b : RefBook) (isBid : Bool) : List (Ticket × ℕ) := if isBid then b.bids else b.asks

def setSide (b : RefBook) (isBid : Bool) (xs : List (Ticket × ℕ)) : RefBook :=
  if isBid then { b with bids := xs } else { b with asks := xs }

/-- Put an order behind all orders that its price is not ahead of. -/
def queue (isBid : Bool) (x : Ticket × ℕ) (xs : List (Ticket × ℕ)) : List (Ticket × ℕ) :=
  xs.orderedInsert (fun x y => ahead isBid x.1.price y.1.price = true) x

/-- Draw on the other side while its price is within the limit, and queue what is left. The answer
is the (order, quantity) pairs drawn, and the order itself unless it has just been filled. -/
def «match» (t : Ticket) (isBid : Bool) (quantity : ℕ) (b : RefBook) :
    RefBook × List (OrderPtr × ℕ) × Option OrderPtr :=
  let r := consume (fun k => !ahead isBid k.price t.price) quantity (b.side (!isBid))
  let b := b.setSide (!isBid) r.rest
  (if 0 < r.left then b.setSide isBid (queue isBid (t, r.left) (b.side isBid)) else b,
    r.taken.map (Prod.map Ticket.order id),
    if quantity = 0 ∨ 0 < r.left then some t.order else none)

def cancel (id : UInt64) (b : RefBook) : RefBook :=
  ⟨b.bids.filter fun x => x.1.id ≠ id, b.asks.filter fun x => x.1.id ≠ id⟩

def step (b : RefBook) : RefRequest → RefBook × List (OrderPtr × ℕ) × Option OrderPtr
  | .match t isBid quantity => b.match t isBid quantity
  | .cancel id => (b.cancel id, [], none)

variable {b c : RefBook} {isBid : Bool} {x : Ticket × ℕ} {X Y : List (Ticket × ℕ)}

theorem ext_sides (h : ∀ s, b.side s = c.side s) : b = c :=
  RefBook.ext (h true) (h false)

@[simp] theorem side_setSide (xs : List (Ticket × ℕ)) : (b.setSide isBid xs).side isBid = xs := by
  cases isBid <;> rfl

@[simp] theorem side_setSide_other (xs : List (Ticket × ℕ)) :
    (b.setSide isBid xs).side (!isBid) = b.side (!isBid) := by
  cases isBid <;> rfl

theorem side_setSide_of_ne {s : Bool} (h : s ≠ isBid) (xs : List (Ticket × ℕ)) :
    (b.setSide isBid xs).side s = b.side s := by
  rw [Bool.eq_not_of_ne h, side_setSide_other]

@[simp] theorem setSide_side (b : RefBook) (isBid : Bool) :
    b.setSide isBid (b.side isBid) = b := by
  cases isBid <;> rfl

theorem side_cancel (id : UInt64) (s : Bool) :
    (b.cancel id).side s = (b.side s).filter fun x => x.1.id ≠ id := by
  cases s <;> rfl

theorem queue_append (hX : ∀ y ∈ X, ahead isBid x.1.price y.1.price = false)
    (hY : ∀ y ∈ Y, ahead isBid x.1.price y.1.price = true) :
    queue isBid x (X ++ Y) = X ++ x :: Y := by
  induction X with
  | nil =>
    cases Y with
    | nil => rfl
    | cons y Y => exact List.orderedInsert_cons_of_le _ _ (hY y List.mem_cons_self)
  | cons y X ih =>
    have hy : ¬ ahead isBid x.1.price y.1.price = true := by
      rw [hX y List.mem_cons_self]
      exact Bool.false_ne_true
    have hX' := fun z hz => hX z (List.mem_cons_of_mem y hz)
    exact (List.orderedInsert_of_not_le (fun x y : Ticket × ℕ => ahead isBid x.1.price y.1.price = true)
      (X ++ Y) hy).trans (congrArg (y :: ·) (ih hX'))

end RefBook

def BookEvent.request : BookEvent → RefRequest
  | .match p o _ _ => .match ⟨p, o.orderId, o.price⟩ o.isBuy o.remainingQuantity.toNat
  | .cancel id _ => .cancel id

/-- The (order, quantity) pairs that `match` appended to the fills, and the order it returned. What
`cancel_order` returns is left out: it can be true of a filled order, which the naive book has not. -/
def BookEvent.answer : BookEvent → List (OrderPtr × ℕ) × Option OrderPtr
  | .match _ _ fills result => (fills.map Fill.pair, result)
  | .cancel _ _ => ([], none)

def ticket (orders : OrderHeap) (p : OrderPtr) : Ticket := ⟨p, (orders p).orderId, (orders p).price⟩

namespace Session

/-- The live orders of a side with their open quantities: level by level, each ring from `m_head` to
`m_tail`, without those that are no longer active or have nothing left. -/
def resting (s : Session) (isBid : Bool) : List (Ticket × ℕ) :=
  (s.book.sideQueue s.orders isBid).map (Prod.map (ticket s.orders) id)

def reference (s : Session) : RefBook := ⟨s.resting true, s.resting false⟩

theorem side_reference (s : Session) (isBid : Bool) : s.reference.side isBid = s.resting isBid := by
  cases isBid <;> rfl

variable {s t : Session} {p : OrderPtr} {o : Order} {e : BookEvent}

theorem Kept.known_of_queued (h : s.Kept) {side : Bool} {x : OrderPtr × ℕ}
    (hx : x ∈ s.book.sideQueue s.orders side) : x.1 ∈ s.known := by
  obtain ⟨l, hl, hx⟩ := mem_sideQueue.1 hx
  exact h.ringed side l hl _ (mem_liveQueue.1 hx).1

theorem Kept.reference_write (h : s.Kept) (hp : p ∉ s.known) (o : Order) :
    (⟨s.book, s.write p o, p :: s.known⟩ : Session).reference = s.reference := by
  refine RefBook.ext_sides fun side => ?_
  rw [side_reference, side_reference, resting, resting, h.write_queue hp o]
  apply List.map_congr_left
  intro x hx
  have hw := write_known hp o (h.known_of_queued hx)
  simp only [Prod.map_apply', ticket, hw]

section Match

variable {u v : BookRun} {fs : List Fill} (h : s.Intact) (hp : p ∉ s.known)
  (hpr : Processed p o.isBuy (s.call p o) v u fs)
include h hp hpr

omit h in
theorem map_ticket {xs : List (OrderPtr × ℕ)} (hxs : ∀ x ∈ xs, x.1 ∈ s.known) :
    xs.map (Prod.map (ticket u.orders) id) = xs.map (Prod.map (ticket s.orders) id) := by
  apply List.map_congr_left
  intro x hx
  have hw : (s.call p o).orders x.1 = s.orders x.1 := write_known hp o (hxs x hx)
  rw [Prod.map_apply', Prod.map_apply', ticket, ticket,
    hpr.static (g := Order.orderId) (fun _ _ => rfl),
    hpr.static (g := Order.price) (fun _ _ => rfl), hw]

theorem consume_resting :
    consume (fun k => !ahead o.isBuy k.price o.price) o.remainingQuantity.toNat
        (s.resting (!o.isBuy)) =
      ⟨(fs.map Fill.pair).map (Prod.map (ticket s.orders) id),
        (v.book.sideQueue v.orders (!o.isBuy)).map (Prod.map (ticket s.orders) id),
        units v.orders p⟩ := by
  have hself : (s.call p o).orders p = o := write_self s p o
  have hdrawn := hpr.drawn
  rw [units, hself, show (s.call p o).book.sideQueue (s.call p o).orders (!o.isBuy) = _ from
    h.kept.write_queue hp o _] at hdrawn
  rw [resting, consume_map, consume_congr (g := within (s.call p o).orders o.isBuy o.price), hdrawn]
  intro x hx
  rw [within, show (s.call p o).orders x.1 = s.orders x.1 from
    write_known hp o (h.kept.known_of_queued hx)]
  rfl

theorem resting_other : (⟨u.book, u.orders, p :: s.known⟩ : Session).resting (!o.isBuy) =
    (v.book.sideQueue v.orders (!o.isBuy)).map (Prod.map (ticket s.orders) id) := by
  rw [resting, hpr.queue_other]
  apply map_ticket hp hpr
  intro x hx
  obtain ⟨m, hm, hx⟩ := mem_sideQueue.1 hx
  obtain ⟨hmu, hsub⟩ := hpr.crossed.ring_sub hm
  exact h.kept.ringed _ m hmu _ (hsub _ (mem_liveQueue.1 hx).1)

theorem resting_own (hact : o.isActive = true) (hroom : u.book.Roomy) :
    (⟨u.book, u.orders, p :: s.known⟩ : Session).resting o.isBuy =
      if 0 < units v.orders p then
        RefBook.queue o.isBuy (⟨p, o.orderId, o.price⟩, units v.orders p) (s.resting o.isBuy)
      else s.resting o.isBuy := by
  have hself : (s.call p o).orders p = o := write_self s p o
  have hq : (s.call p o).book.sideQueue (s.call p o).orders o.isBuy = _ :=
    h.kept.write_queue hp o o.isBuy
  have hknown : ∀ x ∈ s.book.sideQueue s.orders o.isBuy, x.1 ∈ s.known := fun x hx =>
    h.kept.known_of_queued hx
  have hprice : ∀ x ∈ s.book.sideQueue s.orders o.isBuy,
      ((s.call p o).orders x.1).price = (s.orders x.1).price := fun x hx => by
    rw [show (s.call p o).orders x.1 = s.orders x.1 from write_known hp o (hknown x hx)]
  have hown := hpr.queue_own (h.write hp o) hp hroom (by rw [hself, hact])
  rw [hq, hself] at hown
  rw [resting]
  rcases hown with ⟨hz, he⟩ | ⟨hpos, X, Y, hs, ht, hX, hY⟩
  · rw [if_neg (by omega), he, map_ticket hp hpr hknown]
    rfl
  · rw [hs] at hknown hprice
    have hticket : ticket u.orders p = ⟨p, o.orderId, o.price⟩ := by
      rw [ticket, hpr.static (g := Order.orderId) (fun _ _ => rfl),
        hpr.static (g := Order.price) (fun _ _ => rfl), hself]
    rw [if_pos hpos, ht, resting, hs, List.map_append, List.map_append, List.map_cons,
      map_ticket hp hpr fun x hx => hknown x (List.mem_append_left _ hx),
      map_ticket hp hpr fun x hx => hknown x (List.mem_append_right _ hx),
      RefBook.queue_append, Prod.map_apply', hticket]
    · rfl
    · intro y hy
      obtain ⟨x, hx, rfl⟩ := List.mem_map.1 hy
      rw [← hX x hx, hprice x (List.mem_append_left _ hx)]
      rfl
    · intro y hy
      obtain ⟨x, hx, rfl⟩ := List.mem_map.1 hy
      rw [← hY x hx, hprice x (List.mem_append_right _ hx)]
      rfl

end Match

/-- Every step is a step of the reference book, with the same answer. -/
theorem RoomyStep.refines (hs : RoomyStep s e t) (h : s.Intact) :
    s.reference.step e.request = (t.reference, e.answer) := by
  obtain ⟨hs, hroom⟩ := hs
  cases hs with
  | @«match» p o _ u r hp hid ho hm =>
    change s.reference.match ⟨p, o.orderId, o.price⟩ o.isBuy o.remainingQuantity.toNat = _
    rcases h.kept.match_cases hp hm with ⟨hz, rfl, rfl⟩ | ⟨hq, ⟨v, fs, hpr, hfs⟩, hr⟩
    · have hz' : o.remainingQuantity.toNat = 0 := by
        rw [hz]
        rfl
      simp only [RefBook.match, hz', consume_zero, lt_self_iff_false, if_false, List.map_nil,
        true_or, if_true, RefBook.setSide_side]
      exact Prod.ext (h.kept.reference_write hp o).symm rfl
    · have hleft : (u.orders p).remainingQuantity > 0 ↔ 0 < units v.orders p := by
        rw [hpr.orders, gt_iff_lt, UInt32.lt_iff_toNat_lt]
        rfl
      have hq0 : ¬ o.remainingQuantity.toNat = 0 := hq.ne'
      simp only [RefBook.match, side_reference, consume_resting h hp hpr]
      refine Prod.ext (RefBook.ext_sides fun side => ?_) (Prod.ext ?_ ?_)
      · rw [side_reference]
        by_cases hs : side = o.isBuy
        · subst hs
          rw [resting_own h hp hpr ho.active hroom]
          split
          · rw [RefBook.side_setSide, RefBook.side_setSide_of_ne (Bool.self_ne_not _), side_reference]
          · rw [RefBook.side_setSide_of_ne (Bool.self_ne_not _), side_reference]
        · rw [Bool.eq_not_of_ne hs, resting_other h hp hpr]
          split
          · rw [RefBook.side_setSide_other, RefBook.side_setSide]
          · rw [RefBook.side_setSide]
      · change _ = u.fills.map Fill.pair
        rw [hfs, List.map_map]
        exact List.map_id _
      · change _ = r
        simp only [hr, hleft, hq0, false_or]
  | cancel id =>
    refine Prod.ext (RefBook.ext_sides fun side => ?_) rfl
    change (s.reference.cancel id).side side = _
    rw [RefBook.side_cancel, side_reference, side_reference, resting, resting, List.filter_map]
    change _ = List.map _ ((s.book.cancelOrder id s.orders).2.1.sideQueue
      (s.book.cancelOrder id s.orders).2.2 side)
    rw [OrderBook.Intact.cancel_queue h id side]
    apply List.map_congr_left
    intro x hx
    have hid := OrderBook.Kept.cancel_static h.kept id (g := Order.orderId) (fun _ => rfl) x.1
    have hprice := OrderBook.Kept.cancel_static h.kept id (g := Order.price) (fun _ => rfl) x.1
    rw [Prod.map_apply', Prod.map_apply', ticket, ticket]
    change _ = (Ticket.mk x.1 ((s.book.cancelOrder id s.orders).2.2 x.1).orderId
      ((s.book.cancelOrder id s.orders).2.2 x.1).price, _)
    rw [hid, hprice]

theorem reference_start (symbol : List UInt8) : (start symbol).reference = {} := by
  refine RefBook.ext_sides fun side => ?_
  rw [side_reference, resting, show (start symbol).book.sideQueue _ side = [] from
    sideQueue_new _ _ side]
  cases side <;> rfl

/-- The order book refines the naive book: after every run in which no ring has more than 127 slots
in use, its live orders are those of the naive book, the calls of `match` have drawn the same
quantities on the same orders, and the next call returns. -/
theorem refines_reference {symbol : List UInt8} (h : Runs RoomyStep (start symbol) ts s) :
    Runs.transduce RefBook.step {} (ts.map fun x => x.2.1.request) =
      (s.reference, ts.map fun x => x.2.1.answer) ∧
    ∀ p o, p ∉ s.known → ∃ r u, OrderBook.match (some p) (s.call p o) = some (r, u) := by
  constructor
  · rw [← reference_start symbol]
    exact h.simulates (intact_start symbol) fun s e t hi hs => ⟨hs.intact hi, hs.refines hi⟩
  · exact fun p o hp => (intact_of_runs h).match_returns hp o

theorem refines_reference_sweep : ∃ ts s, Runs RoomyStep (start []) ts s ∧
    (ts.map fun x => x.2.1.answer) = [([], some 1), ([], some 2), ([], some 3), ([], none),
      ([(3, 2), (1, 3)], none)] ∧
    Runs.transduce RefBook.step {} (ts.map fun x => x.2.1.request) =
      (s.reference, ts.map fun x => x.2.1.answer) := by
  obtain ⟨ts, s, hr, hok⟩ := exists_roomy_run []
    [.match 1 (.limit 1 .SELL 101 5), .match 2 (.limit 2 .SELL 100 4),
      .match 3 (.limit 3 .SELL 100 2), .cancel 2, .match 4 (.limit 4 .BUY 101 5)]
    (fun ts _ => (ts.map fun x => x.2.1.answer) = [([], some 1), ([], some 2), ([], some 3),
      ([], none), ([(3, 2), (1, 3)], none)]) (by decide +kernel)
  exact ⟨ts, s, hr, of_decide_eq_true hok, (refines_reference hr).1⟩

end Session

end Velox
