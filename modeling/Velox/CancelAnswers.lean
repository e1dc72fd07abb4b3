import Velox.BookSession

namespace Velox
set_option autoImplicit true

open Greedy OrderBook PriceLevel

def OrderBook.totalAt (b : OrderBook) (x : Int64) : UInt32 :=
  match b.mPriceToLevel x with
  | none => 0
  | some l => (b.level l).totalQuantity

namespace Session

variable {s : Session} {symbol : List UInt8} {id : UInt64} {p : OrderPtr}

/-- A cancel answers and does what it should: it finds a live order with the id and takes out that
order alone, or it says no and leaves all but the index as it was. -/
structure CancelsRight (s : Session) (id : UInt64) : Prop where
  live : ∀ p ∈ s.known, (s.orders p).orderId = id → isLive s.orders p = true →
    (s.book.cancelOrder id s.orders).1 = true ∧
    (s.book.cancelOrder id s.orders).2.2 = cancelIn s.orders p ∧
    (∀ side, (s.book.cancelOrder id s.orders).2.1.sideQueue
        (s.book.cancelOrder id s.orders).2.2 side =
      (s.book.sideQueue s.orders side).filter fun x => x.1 ≠ p) ∧
    (∀ x, (s.book.cancelOrder id s.orders).2.1.totalAt x =
      if x = (s.orders p).price then s.book.totalAt x - (s.orders p).remainingQuantity
      else s.book.totalAt x) ∧
    ∀ side, (s.book.cancelOrder id s.orders).2.1.depth side =
      if side = (s.orders p).isBuy then s.book.depth side - (s.orders p).remainingQuantity
      else s.book.depth side
  dead : (∀ p ∈ s.known, (s.orders p).orderId = id → isLive s.orders p = false) →
    (s.book.cancelOrder id s.orders).1 = false ∧
    (s.book.cancelOrder id s.orders).2.2 = s.orders ∧
    (s.book.cancelOrder id s.orders).2.1 =
      { s.book with mOrderIndex := (s.book.cancelOrder id s.orders).2.1.mOrderIndex }
  filled : ∀ p ∈ s.known, (s.orders p).remainingQuantity = 0 →
    ((s.book.cancelOrder id s.orders).2.2 p).status = (s.orders p).status

/-- The index still has an entry for a filled order, and a level is in the book at its price. -/
def StaleEntry (s : Session) (id : UInt64) : Prop :=
  ∃ loc l, s.book.mOrderIndex id = some loc ∧
    (s.orders loc.orderPtr).remainingQuantity = 0 ∧ s.book.mPriceToLevel loc.price = some l

theorem Intact.entry_of_live (h : s.Intact) (hk : p ∈ s.known) (hlive : isLive s.orders p = true) :
    s.book.mOrderIndex (s.orders p).orderId =
      some { price := (s.orders p).price, isBid := (s.orders p).isBuy, orderPtr := p } :=
  h.found _ _ (h.queued p hk hlive)

theorem Intact.totalAt_cut {loc : OrderLocation} {l : LevelPtr} {side : Bool} {lvl : PriceLevel}
    (h : s.Intact) (hi : s.book.mOrderIndex id = some loc)
    (hm : s.book.mPriceToLevel loc.price = some l) (hl : l ∈ s.book.levels side)
    (hcut : Cut loc.orderPtr s.orders (s.book.level l) lvl) (r : UInt32) (x : Int64) :
    (s.book.putLevel loc.isBid l lvl r).totalAt x =
      if x = loc.price then s.book.totalAt x - (s.orders loc.orderPtr).remainingQuantity
      else s.book.totalAt x := by
  have hprice : lvl.mPrice = loc.price :=
    (show lvl.mPrice = s.book.priceAt l from hcut.swept.price).trans ((h.ladder.mapped _ l).1 hm).2
  have htotal : lvl.mTotalQuantity =
      (s.book.level l).mTotalQuantity - (s.orders loc.orderPtr).remainingQuantity := hcut.swept.total
  unfold totalAt
  rw [map_putLevel, hprice]
  by_cases hx : x = loc.price
  · subst hx
    rw [if_pos rfl, hm]
    by_cases hz : lvl.mSize = 0
    · have hexact : lvl.Exact (cancelIn s.orders loc.orderPtr) :=
        hcut.exact (h.ladder.wf side l hl) (h.exact side l hl) (h.cut_mem hi hm)
      rw [if_pos hz, Function.update_self]
      change 0 = (s.book.level l).mTotalQuantity - _
      rw [← htotal, hexact, hcut.swept.wf.ring_of_size hz]
      rfl
    · rw [if_neg hz, hm]
      change ((s.book.putLevel loc.isBid l lvl r).level l).mTotalQuantity = _
      rw [level_putLevel hz, htotal]
      rfl
  · rw [if_neg hx]
    have hmap : (if lvl.mSize = 0 then Function.update s.book.mPriceToLevel loc.price none
        else s.book.mPriceToLevel) x = s.book.mPriceToLevel x := by
      split
      · rw [Function.update_of_ne hx]
      · rfl
    rw [hmap]
    cases hmx : s.book.mPriceToLevel x with
    | none => rfl
    | some m =>
      have hne : m ≠ l := by
        rintro rfl
        rw [← ((h.ladder.mapped _ m).1 hmx).2, ← ((h.ladder.mapped _ m).1 hm).2] at hx
        exact hx rfl
      simp only [level_putLevel_of_ne hne]

theorem Intact.refused_right (h : s.Intact) {index : UInt64 → Option OrderLocation}
    (hnone : ∀ loc, s.book.mOrderIndex id = some loc → s.book.mPriceToLevel loc.price = none)
    (he : s.book.cancelOrder id s.orders =
      (false, { s.book with mOrderIndex := index }, s.orders)) : s.CancelsRight id where
  live := fun p hk hid hlive => by
    have hentry := h.entry_of_live hk hlive
    rw [hid] at hentry
    rcases h.indexed_cases hentry with hz | ⟨-, -, l, -, -, hm⟩
    · exact absurd hz (isLive_iff.1 hlive).2.ne'
    · rw [hnone _ hentry] at hm
      cases hm
  dead := fun _ => by
    rw [he]
    exact ⟨rfl, rfl, rfl⟩
  filled := fun p _ _ => by rw [he]

theorem Intact.cut_right {loc : OrderLocation} {l : LevelPtr} {side : Bool} {lvl : PriceLevel}
    (h : s.Intact) (hi : s.book.mOrderIndex id = some loc)
    (hm : s.book.mPriceToLevel loc.price = some l) (hl : l ∈ s.book.levels side)
    (hcut : Cut loc.orderPtr s.orders (s.book.level l) lvl)
    (hpos : 0 < units s.orders loc.orderPtr)
    (he : s.book.cancelOrder id s.orders =
      (true, ((s.book.putLevel loc.isBid l lvl
        (s.orders loc.orderPtr).remainingQuantity).eraseIndex id).updateBestPrices.bumpSequence,
        cancelIn s.orders loc.orderPtr)) : s.CancelsRight id where
  live := fun p hk hid hlive => by
    have hentry := h.entry_of_live hk hlive
    rw [hid, hi, Option.some.injEq] at hentry
    subst hentry
    have hside : (s.orders p).isBuy = (s.orders p).isBuy := rfl
    rw [he]
    refine ⟨rfl, rfl, Cut.sideQueue h.ladder.shelves hl hcut hside _, h.totalAt_cut hi hm hl hcut _,
      fun side => ?_⟩
    change (s.book.putLevel _ l lvl _).depth side = _
    split
    · rename_i hs
      rw [hs, depth_putLevel]
    · rename_i hs
      rw [depth_putLevel_of_ne hs]
  dead := fun hdead => by
    obtain ⟨hk, hid, hactive, -⟩ := h.indexed id loc hi
    have hlive := isLive_iff.2 ⟨hactive, hpos⟩
    rw [hdead _ hk hid] at hlive
    cases hlive
  filled := fun p _ hz => by
    have hne : p ≠ loc.orderPtr := by
      rintro rfl
      exact absurd (units_eq_zero_iff.2 hz) hpos.ne'
    rw [he]
    change (cancelIn s.orders loc.orderPtr p).status = _
    rw [cancelIn_other hne]

/-- A cancel after any run is right exactly when it does not go through a stale entry. -/
theorem cancels_right_iff (h : Runs RoomyStep (start symbol) ts s) (id : UInt64) :
    s.CancelsRight id ↔ ¬ s.StaleEntry id := by
  have hi := intact_of_runs h
  constructor
  · rintro hr ⟨loc, l, hidx, hz, hm⟩
    have hdead : ∀ p ∈ s.known, (s.orders p).orderId = id → isLive s.orders p = false := by
      intro p hk hid
      by_contra hlive
      rw [Bool.not_eq_false] at hlive
      have hentry := hi.entry_of_live hk hlive
      rw [hid, hidx, Option.some.injEq] at hentry
      subst hentry
      exact absurd (units_eq_zero_iff.2 hz) (isLive_iff.1 hlive).2.ne'
    obtain ⟨⟨side, hl⟩, -⟩ := (hi.ladder.mapped _ l).1 hm
    obtain ⟨lvl, -, he⟩ := cancelOrder_found hidx hm (hi.ladder.wf side l hl)
      (hi.indexed id loc hidx).2.2.1
    have hfalse := (hr.dead hdead).1
    rw [he] at hfalse
    cases hfalse
  · intro hstale
    rcases hi.toKept.stocked.cancel_cases id with
      ⟨hidx, he⟩ | ⟨loc, hidx, hm, he⟩ | ⟨loc, l, side, lvl, hidx, hm, hl, hcut, he⟩
    · exact hi.refused_right (fun loc hloc => by rw [hidx] at hloc; cases hloc) he
    · refine hi.refused_right (fun loc' hloc => ?_) he
      rw [hidx, Option.some.injEq] at hloc
      rw [← hloc, hm]
    · have hpos : 0 < units s.orders loc.orderPtr := Nat.pos_of_ne_zero fun hz =>
        hstale ⟨loc, l, hidx, units_eq_zero_iff.1 hz, hm⟩
      exact hi.cut_right hidx hm hl hcut hpos he

theorem cancels_right_iff_live : ∃ ts s, Runs RoomyStep (start []) ts s ∧
    s.CancelsRight 2 ∧ (s.book.cancelOrder 2 s.orders).1 = true := by
  obtain ⟨ts, s, hr, hok⟩ := exists_roomy_run []
    [.match 1 (.limit 1 .SELL 101 5), .match 2 (.limit 2 .SELL 101 4), .match 3 (.limit 3 .BUY 101 6)]
    (fun _ s => s.book.mOrderIndex 2 = some ⟨101, false, 2⟩ ∧ (s.orders 2).remainingQuantity = 3 ∧
      (s.book.cancelOrder 2 s.orders).1 = true) (by decide +kernel)
  obtain ⟨hidx, hrem, htrue⟩ := of_decide_eq_true hok
  refine ⟨ts, s, hr, (cancels_right_iff hr 2).2 ?_, htrue⟩
  rintro ⟨loc, l, hloc, hz, -⟩
  rw [hidx, Option.some.injEq] at hloc
  rw [← hloc, hrem] at hz
  exact absurd hz (by decide)

/-- A filled order is cancelled with success as long as others rest at its price. -/
theorem filled_order_cancelled : ∃ ts s, Runs RoomyStep (start []) ts s ∧
    (s.orders 1).orderId = 1 ∧ (s.orders 1).remainingQuantity = 0 ∧
    (s.book.cancelOrder 1 s.orders).1 = true ∧
    ((s.book.cancelOrder 1 s.orders).2.2 1).status = .CANCELLED ∧ ¬ s.CancelsRight 1 := by
  obtain ⟨ts, s, hr, hok⟩ := exists_roomy_run []
    [.match 1 (.limit 1 .SELL 101 5), .match 2 (.limit 2 .SELL 101 4), .match 3 (.limit 3 .BUY 101 5)]
    (fun _ s => (s.orders 1).orderId = 1 ∧ (s.orders 1).remainingQuantity = 0 ∧
      (s.book.cancelOrder 1 s.orders).1 = true ∧
      ((s.book.cancelOrder 1 s.orders).2.2 1).status = .CANCELLED ∧
      1 ∈ s.known ∧ (s.orders 1).status = .NEW) (by decide +kernel)
  obtain ⟨hid, hz, htrue, hcancelled, hk, hnew⟩ := of_decide_eq_true hok
  refine ⟨ts, s, hr, hid, hz, htrue, hcancelled, fun hright => ?_⟩
  have hsame := hright.filled 1 hk hz
  rw [hcancelled, hnew] at hsame
  cases hsame

end Session

end Velox
