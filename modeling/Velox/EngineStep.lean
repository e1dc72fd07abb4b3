import Velox.MatchingEngine
import Velox.BookSession

namespace Velox
set_option autoImplicit true

open OrderBook PriceLevel

variable {orders : OrderHeap} {p q : OrderPtr} {o : Order} {st : OrderStatus}

theorem setStatus_self : setStatus p st orders p = { orders p with status := st } := by
  rw [setStatus, Function.update_self]

theorem setStatus_other (h : q ≠ p) : setStatus p st orders q = orders q := by
  rw [setStatus, Function.update_of_ne h]

theorem setStatus_static {g : Order → α} (hg : ∀ o st, g { o with status := st } = g o)
    (p q : OrderPtr) (st : OrderStatus) (orders : OrderHeap) :
    g (setStatus p st orders q) = g (orders q) := by
  by_cases hq : q = p
  · subst hq
    rw [setStatus_self, hg]
  · rw [setStatus_other hq]

theorem Order.toLimit_static {g : Order → α} (hg : ∀ o x y, g { o with price := x, type := y } = g o)
    (o : Order) : g o.toLimit = g o := by
  rw [toLimit]
  split
  · exact hg _ _ _
  · rfl

theorem Order.Fresh.toLimit (h : o.Fresh) : o.toLimit.Fresh where
  status := (toLimit_static (g := Order.status) (fun _ _ _ => rfl) o).trans h.status
  filled := (toLimit_static (g := Order.filledQuantity) (fun _ _ _ => rfl) o).trans h.filled
  remaining := by
    rw [toLimit_static (g := Order.remainingQuantity) fun _ _ _ => rfl,
      toLimit_static (g := Order.quantity) fun _ _ _ => rfl]
    exact h.remaining

theorem PositionManager.book_append (orders : OrderHeap) (bs cs : List Booking)
    (pm : PositionManager) : pm.book orders (bs ++ cs) = (pm.book orders bs).book orders cs :=
  List.foldl_append

namespace EngineRun

variable {s t : EngineRun} {out : Outcome} {u : BookRun} {bs : List Booking} {fs : List Fill}

/-- A call of `process_order` that the risk check stops. -/
structure Refuses (p : OrderPtr) (s : EngineRun) (out : Outcome) (t : EngineRun) : Prop where
  outcome : out = { accepted := false }
  book : t.engine.mOrderBook = s.engine.mOrderBook
  queue : t.engine.mIncomingOrders = s.engine.mIncomingOrders
  orders : t.orders = setStatus p .REJECTED s.orders
  positions : t.shared.positionManager = s.shared.positionManager

/-- A call of `process_order` in which `match` leaves the book at `u`. -/
structure Accepts (p : OrderPtr) (s : EngineRun) (u : BookRun) (out : Outcome) (t : EngineRun) :
    Prop where
  called : ∃ r, OrderBook.match (some p)
    ⟨s.engine.mOrderBook, Function.update s.orders p (s.orders p).toLimit, []⟩ = some (r, u)
  outcome : out = ⟨true, u.fills, makerBookings u.orders u.fills ++ takerBookings u.orders p⟩
  book : t.engine.mOrderBook = u.book
  queue : t.engine.mIncomingOrders = s.engine.mIncomingOrders
  orders : t.orders = setStatus p (u.orders p).settledStatus u.orders
  positions : t.shared.positionManager =
    s.shared.positionManager.map fun pm => pm.book u.orders out.bookings

theorem sendFills_spec (h : s.sendFills p fs = some t) :
    t.engine.mOrderBook = s.engine.mOrderBook ∧
    t.engine.mIncomingOrders = s.engine.mIncomingOrders ∧ t.orders = s.orders ∧
    t.shared.positionManager = s.shared.positionManager.map fun pm =>
      pm.book s.orders (takerBookings s.orders p) := by
  simp only [sendFills] at h
  by_cases hf : (s.orders p).filledQuantity > 0
  · rw [if_pos hf, Option.map_eq_some_iff] at h
    obtain ⟨v, hv, rfl⟩ := h
    rw [takerBookings, if_pos hf]
    simp only [sendFill] at hv
    split at hv
    · obtain rfl := Option.some.inj hv
      exact ⟨rfl, rfl, rfl, rfl⟩
    · rw [Option.map_eq_some_iff] at hv
      obtain ⟨r, -, rfl⟩ := hv
      exact ⟨rfl, rfl, rfl, rfl⟩
  · rw [if_neg hf] at h
    obtain rfl := Option.some.inj h
    rw [takerBookings, if_neg hf]
    exact ⟨rfl, rfl, rfl, Option.map_id'.symm⟩

theorem processOrder_cases (h : s.processOrder p = some (out, t)) :
    (s.shared.checkRisk (s.orders p) = false ∧ Refuses p s out t) ∨
    (s.shared.checkRisk (s.orders p) = true ∧ ∃ u, Accepts p s u out t) := by
  cases hrisk : s.shared.checkRisk (s.orders p) with
  | false =>
    left
    rw [processOrder, if_pos hrisk, Option.map_eq_some_iff] at h
    obtain ⟨v, hv, he⟩ := h
    obtain ⟨rfl, rfl⟩ := Prod.mk.inj he
    rw [reject, Option.bind_eq_some_iff] at hv
    obtain ⟨g, -, hv⟩ := hv
    rw [Option.map_eq_some_iff] at hv
    obtain ⟨r, -, rfl⟩ := hv
    exact ⟨rfl, rfl, rfl, rfl, rfl, rfl⟩
  | true =>
    right
    rw [processOrder, if_neg (by rw [hrisk]; exact Bool.noConfusion), Option.bind_eq_some_iff] at h
    obtain ⟨⟨r, u⟩, hu, h⟩ := h
    rw [Option.map_eq_some_iff] at h
    obtain ⟨v, hv, he⟩ := h
    obtain ⟨rfl, rfl⟩ := Prod.mk.inj he
    obtain ⟨hbook, hqueue, horders, hpos⟩ := sendFills_spec hv
    refine ⟨rfl, u, ⟨r, hu⟩, ?_, hbook, hqueue, ?_, ?_⟩
    · rw [horders]
      rfl
    · change setStatus p _ v.orders = _
      rw [horders]
      rfl
    · change v.shared.positionManager = _
      rw [hpos, horders]
      change (s.shared.positionManager.map fun pm =>
          pm.book u.orders (makerBookings u.orders u.fills)).map _ =
        s.shared.positionManager.map fun pm =>
          pm.book u.orders (makerBookings u.orders u.fills ++ takerBookings u.orders p)
      rw [Option.map_map]
      congr 1
      funext pm
      exact (PositionManager.book_append u.orders _ _ pm).symm

theorem sendFills_risk (h : s.sendFills p fs = some t) :
    t.shared.riskManager = s.shared.riskManager := by
  rw [sendFills] at h
  split at h
  · rw [Option.map_eq_some_iff] at h
    obtain ⟨v, hv, rfl⟩ := h
    rw [sendFill] at hv
    split at hv
    · obtain rfl := Option.some.inj hv
      rfl
    · rw [Option.map_eq_some_iff] at hv
      obtain ⟨r, -, rfl⟩ := hv
      rfl
  · obtain rfl := Option.some.inj h
    rfl

theorem processOrder_risk (h : s.processOrder p = some (out, t)) :
    t.shared.riskManager = s.shared.riskManager := by
  rw [processOrder] at h
  split at h
  · rw [Option.map_eq_some_iff] at h
    obtain ⟨v, hv, he⟩ := h
    obtain ⟨-, rfl⟩ := Prod.mk.inj he
    rw [reject, Option.bind_eq_some_iff] at hv
    obtain ⟨g, -, hv⟩ := hv
    rw [Option.map_eq_some_iff] at hv
    obtain ⟨r, -, rfl⟩ := hv
    rfl
  · rw [Option.bind_eq_some_iff] at h
    obtain ⟨⟨r, u⟩, -, h⟩ := h
    rw [Option.map_eq_some_iff] at h
    obtain ⟨v, hv, he⟩ := h
    obtain ⟨-, rfl⟩ := Prod.mk.inj he
    exact (sendFills_risk hv :)

theorem turn_spec (h : s.matchCycleBody = some (.inr t)) :
    ∃ p ps out, s.engine.mIncomingOrders.items = p :: ps ∧
      processOrder p { s with engine.mIncomingOrders := ⟨ps⟩ } = some (out, t) := by
  simp only [matchCycleBody, SPSCQueue.pop] at h
  split at h
  · cases h
  · rename_i p queue hpop
    split at hpop
    · cases hpop
    · rename_i q qs hitems
      obtain ⟨rfl, rfl⟩ := Prod.mk.inj (Option.some.inj hpop)
      rw [Option.map_eq_some_iff] at h
      obtain ⟨⟨out, v⟩, hv, he⟩ := h
      obtain rfl := Sum.inr.inj he
      exact ⟨q, qs, out, hitems, hv⟩

end EngineRun

end Velox
