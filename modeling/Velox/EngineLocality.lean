import Velox.BookLocality
import Velox.EngineStep

namespace Velox
set_option autoImplicit true

variable {K : Set OrderPtr} {f : OrderPtr → Order → Order} {orders orders' : OrderHeap}
  {p q : OrderPtr} {key : List UInt8} {bs : List Booking} {fs : List Fill}

/-- The orders of a set stay, every other one is taken from elsewhere. -/
noncomputable def graft (K : Set OrderPtr) (orders : OrderHeap) (q : OrderPtr) (o : Order) : Order :=
  open Classical in if q ∈ K then o else orders q

theorem graft_exact : ∀ q ∈ K, ∀ o, graft K orders q o = o := fun _ hq _ => if_pos hq

theorem graft_other (hq : q ∉ K) (o : Order) : graft K orders q o = orders q := if_neg hq

theorem rewrite_graft_self (K : Set OrderPtr) (orders : OrderHeap) :
    rewrite (graft K orders) orders = orders := by
  funext q
  exact ite_self _

theorem rewrite_graft (h : ∀ q ∈ K, orders' q = orders q) :
    rewrite (graft K orders') orders = orders' := by
  funext q
  by_cases hq : q ∈ K
  · exact (graft_exact q hq _).trans (h q hq).symm
  · exact graft_other hq _

namespace PositionManager

theorem book_congr (hkey : ∀ b ∈ bs, (orders' b.order).key = (orders b.order).key)
    (hside : ∀ b ∈ bs, (orders' b.order).isBuy = (orders b.order).isBuy) (pm : PositionManager) :
    pm.book orders' bs = pm.book orders bs := by
  induction bs generalizing pm with
  | nil => rfl
  | cons b bs ih =>
    have hfirst : pm.updatePosition (some (orders' b.order)) b.quantity b.price =
        pm.updatePosition (some (orders b.order)) b.quantity b.price := by
      simp only [updatePosition, hkey b (List.mem_cons_self ..), hside b (List.mem_cons_self ..)]
    rw [book, List.foldl_cons, hfirst]
    exact ih (fun b hb => hkey b (List.mem_cons_of_mem _ hb))
      (fun b hb => hside b (List.mem_cons_of_mem _ hb)) _

theorem update_agree {pm pm' : PositionManager} (h : pm'.mPositions key = pm.mPositions key)
    (o : Option Order) (q : UInt32) (x : Int64) :
    (pm'.updatePosition o q x).mPositions key = (pm.updatePosition o q x).mPositions key := by
  cases o with
  | none => exact h
  | some o =>
    simp only [updatePosition]
    split
    · exact h
    · by_cases hk : key = o.key
      · subst hk
        simp only [h, Function.update_self]
      · simp only [Function.update_of_ne hk, h]

theorem book_agree {pm pm' : PositionManager} (h : pm'.mPositions key = pm.mPositions key) :
    (pm'.book orders bs).mPositions key = (pm.book orders bs).mPositions key := by
  induction bs generalizing pm pm' with
  | nil => exact h
  | cons b bs ih => exact ih (update_agree h _ _ _)

theorem book_other (h : ∀ b ∈ bs, (orders b.order).key ≠ key) (pm : PositionManager) :
    (pm.book orders bs).mPositions key = pm.mPositions key := by
  induction bs generalizing pm with
  | nil => rfl
  | cons b bs ih =>
    have hfirst : (pm.updatePosition (some (orders b.order)) b.quantity b.price).mPositions key =
        pm.mPositions key := by
      simp only [updatePosition]
      split
      · rfl
      · exact Function.update_of_ne (h b (List.mem_cons_self ..)).symm _ _
    exact (ih (fun b hb => h b (List.mem_cons_of_mem _ hb)) _).trans hfirst

end PositionManager

namespace ExecutionGateway

/-- The pool has a report for every acquisition. -/
def Stocked (g : ExecutionGateway) : Prop := ∀ n, (g.acquires n).isSome

variable {g : ExecutionGateway}

theorem selectWorker_acquires (workerId : Int32) (g : ExecutionGateway) :
    (g.selectWorker workerId).2.acquires = g.acquires := by
  rw [selectWorker]
  split <;> rfl

theorem Stocked.sendReport (h : g.Stocked) (r : ExecutionReport) (workerId : Int32) :
    ∃ x, g.sendReport r workerId = some x ∧ x.2.Stocked := by
  simp only [ExecutionGateway.sendReport]
  split
  · exact ⟨_, rfl, h⟩
  · have hselected : (g.selectWorker workerId).2.Stocked := fun n => by
      rw [selectWorker_acquires]
      exact h n
    split
    · exact ⟨_, rfl, hselected⟩
    · obtain ⟨out, hout⟩ := Option.isSome_iff_exists.1
        (hselected (g.selectWorker workerId).2.acquired)
      exact ⟨_, by rw [hout, Option.map_some], hselected⟩

theorem Stocked.sendOrder (h : g.Stocked) (o : Order) (workerId : Int32) :
    ∃ x, g.sendOrder (some o) workerId = some x ∧ x.2.Stocked :=
  Stocked.sendReport (g := { g with mTotalOrders := g.mTotalOrders + 1 }) h _ _

end ExecutionGateway

/-- The gateway, if there is one, has a pool that always answers. -/
def Collaborators.Stocked (c : Collaborators) : Prop := ∀ g ∈ c.gateway, g.Stocked

def MatchingEngine.countFills (o : Order) (fs : List Fill) (e : MatchingEngine) : MatchingEngine :=
  if o.filledQuantity > 0 then
    { e with mMatchCount := e.mMatchCount + UInt64.ofNat (if fs.isEmpty then 1 else fs.length) }
  else e

namespace EngineRun

open OrderBook PriceLevel

variable {s s' t t' : EngineRun} {out out' : Outcome} {u : BookRun}

def rewrite (f : OrderPtr → Order → Order) (s : EngineRun) : EngineRun :=
  { s with orders := Velox.rewrite f s.orders }

theorem rewrite_setStatus (hf : ∀ q ∈ K, ∀ o, f q o = o) (hp : p ∈ K) (status : OrderStatus)
    (orders : OrderHeap) :
    setStatus p status (Velox.rewrite f orders) = Velox.rewrite f (setStatus p status orders) := by
  rw [setStatus, setStatus, rewrite_update, hf p hp, Velox.rewrite, hf p hp]

theorem takerBookings_within (hp : p ∈ K) : ∀ b ∈ takerBookings orders p, b.order ∈ K := by
  intro b hb
  rw [takerBookings] at hb
  split at hb
  · rw [List.mem_singleton] at hb
    exact hb ▸ hp
  · cases hb

theorem makerBookings_within (h : ∀ x ∈ fs, x.order ∈ K) :
    ∀ b ∈ makerBookings orders fs, b.order ∈ K := by
  intro b hb
  obtain ⟨x, hx, rfl⟩ := List.mem_map.1 hb
  exact h x hx

theorem Accepts.within (ha : Accepts p s u out t) (h : s.engine.mOrderBook.Within K) (hp : p ∈ K) :
    t.engine.mOrderBook.Within K ∧ ∀ b ∈ out.bookings, b.order ∈ K := by
  obtain ⟨r, hm⟩ := ha.called
  have hu := match_within ⟨h, fun _ hx => by cases hx⟩ hp hm
  rw [ha.book, ha.outcome]
  refine ⟨hu.book, fun b hb => ?_⟩
  rcases List.mem_append.1 hb with hb | hb
  · exact makerBookings_within hu.fills b hb
  · exact takerBookings_within hp b hb

theorem processOrder_within (h : s.engine.mOrderBook.Within K) (hp : p ∈ K)
    (hc : s.processOrder p = some (out, t)) :
    t.engine.mOrderBook.Within K ∧ ∀ b ∈ out.bookings, b.order ∈ K := by
  rcases processOrder_cases hc with ⟨-, hr⟩ | ⟨-, u, ha⟩
  · rw [hr.book, hr.outcome]
    exact ⟨h, fun _ hb => by cases hb⟩
  · exact ha.within h hp

theorem processOrder_key (hc : s.processOrder p = some (out, t)) (q : OrderPtr) :
    (t.orders q).key = (s.orders q).key := by
  have hkey : ∀ {o o' : Order}, o'.symbol = o.symbol → o'.key = o.key := fun h => by
    rw [Order.key, Order.key, h]
  rcases processOrder_cases hc with ⟨-, hr⟩ | ⟨-, u, ha⟩
  · rw [hr.orders]
    exact setStatus_static (g := Order.key) (fun _ _ => rfl) p q _ _
  · obtain ⟨r, hm⟩ := ha.called
    rw [ha.orders, setStatus_static (g := Order.key) fun _ _ => rfl, hkey (match_symbol hm q)]
    change (Function.update s.orders p (s.orders p).toLimit q).key = _
    by_cases hq : q = p
    · subst hq
      rw [Function.update_self]
      exact Order.toLimit_static (g := Order.key) (fun _ _ _ => rfl) _
    · rw [Function.update_of_ne hq]

theorem processOrder_positions (hc : s.processOrder p = some (out, t)) :
    t.shared.positionManager = s.shared.positionManager.map fun pm =>
      pm.book t.orders out.bookings := by
  rcases processOrder_cases hc with ⟨-, hr⟩ | ⟨-, u, ha⟩
  · rw [hr.positions, hr.outcome]
    exact Option.map_id'.symm
  · rw [ha.positions, ha.orders]
    congr 1
    funext pm
    exact (PositionManager.book_congr
      (fun b _ => setStatus_static (g := Order.key) (fun _ _ => rfl) p b.order _ _)
      (fun b _ => setStatus_static (g := Order.isBuy) (fun _ _ => rfl) p b.order _ _) pm).symm

theorem sendFills_engine (h : s.sendFills p fs = some t) :
    t.engine = s.engine.countFills (s.orders p) fs := by
  rw [sendFills] at h
  rw [MatchingEngine.countFills]
  split at h
  · rename_i hf
    rw [Option.map_eq_some_iff] at h
    obtain ⟨v, hv, rfl⟩ := h
    rw [if_pos hf]
    rw [sendFill] at hv
    split at hv
    · obtain rfl := Option.some.inj hv
      rfl
    · rw [Option.map_eq_some_iff] at hv
      obtain ⟨r, -, rfl⟩ := hv
      rfl
  · rename_i hf
    rw [if_neg hf]
    obtain rfl := Option.some.inj h
    rfl

theorem makerBookings_rewrite (hf : ∀ q ∈ K, ∀ o, f q o = o) (h : ∀ x ∈ fs, x.order ∈ K) :
    makerBookings (Velox.rewrite f orders) fs = makerBookings orders fs :=
  List.map_congr_left fun x hx => by rw [Velox.rewrite, hf _ (h x hx)]

/-- A call reads and writes orders of the book and the new one only; neither the gateway nor the
positions decide what it does to the engine and the orders. -/
theorem processOrder_rewrite (hf : ∀ q ∈ K, ∀ o, f q o = o) (h : s.engine.mOrderBook.Within K)
    (hp : p ∈ K) (he : s'.engine = s.engine) (ho : s'.orders = Velox.rewrite f s.orders)
    (hrisk : s'.shared.riskManager = s.shared.riskManager)
    (hc : s.processOrder p = some (out, t)) (hc' : s'.processOrder p = some (out', t')) :
    out' = out ∧ t'.engine = t.engine ∧ t'.orders = Velox.rewrite f t.orders := by
  have hexact : ∀ orders, Velox.rewrite f orders p = orders p := fun _ => hf p hp _
  have hcheck : s'.shared.checkRisk (s'.orders p) = s.shared.checkRisk (s.orders p) := by
    rw [Collaborators.checkRisk, hrisk, ho, hexact, Collaborators.checkRisk]
  rw [processOrder, hcheck] at hc'
  rw [processOrder] at hc
  split at hc
  · rename_i hrefused
    rw [if_pos hrefused, Option.map_eq_some_iff] at hc'
    rw [Option.map_eq_some_iff] at hc
    obtain ⟨v, hv, hout⟩ := hc
    obtain ⟨rfl, rfl⟩ := Prod.mk.inj hout
    obtain ⟨v', hv', hout'⟩ := hc'
    obtain ⟨rfl, rfl⟩ := Prod.mk.inj hout'
    rw [reject, Option.bind_eq_some_iff] at hv hv'
    obtain ⟨g, -, hv⟩ := hv
    obtain ⟨g', -, hv'⟩ := hv'
    rw [Option.map_eq_some_iff] at hv hv'
    obtain ⟨r, -, rfl⟩ := hv
    obtain ⟨r', -, rfl⟩ := hv'
    exact ⟨rfl, by simp only [he], by simp only [ho, rewrite_setStatus hf hp]⟩
  · rename_i haccepted
    let start : BookRun :=
      ⟨s.engine.mOrderBook, Function.update s.orders p (s.orders p).toLimit, []⟩
    have hwithin : start.Within K := ⟨h, fun _ hx => by cases hx⟩
    have hstart : (⟨s'.engine.mOrderBook, Function.update s'.orders p (s'.orders p).toLimit, []⟩ :
        BookRun) = start.rewrite f := by
      rw [he, ho, hexact, BookRun.rewrite, rewrite_update, hf p hp]
    rw [if_neg haccepted, Option.bind_eq_some_iff] at hc'
    rw [Option.bind_eq_some_iff] at hc
    obtain ⟨⟨r, u⟩, hu, hc⟩ := hc
    obtain ⟨⟨r', u'⟩, hu', hc'⟩ := hc'
    rw [hstart, match_rewrite (unseen_of_exact hf) hp hwithin,
      show OrderBook.match (some p) start = some (r, u) from hu, Option.map_some] at hu'
    obtain ⟨rfl, rfl⟩ := Prod.mk.inj (Option.some.inj hu')
    rw [Option.map_eq_some_iff] at hc hc'
    obtain ⟨v, hv, hout⟩ := hc
    obtain ⟨v', hv', hout'⟩ := hc'
    obtain ⟨rfl, rfl⟩ := Prod.mk.inj hout
    obtain ⟨rfl, rfl⟩ := Prod.mk.inj hout'
    have hfills := (match_within hwithin hp hu).fills
    have horders : v.orders = u.orders := (sendFills_spec hv).2.2.1
    have horders' : v'.orders = Velox.rewrite f u.orders := (sendFills_spec hv').2.2.1
    have hengine : v'.engine = v.engine := by
      rw [sendFills_engine hv', sendFills_engine hv]
      change MatchingEngine.countFills (Velox.rewrite f u.orders p) _ _ = _
      rw [hexact, he]
      rfl
    refine ⟨?_, ?_, ?_⟩
    · change Outcome.mk true u.fills (makerBookings (Velox.rewrite f u.orders) u.fills ++ _) = _
      rw [makerBookings_rewrite hf hfills, horders, horders', takerBookings, takerBookings, hexact]
    · simp only [finalize, hengine, horders, horders', hexact]
    · simp only [finalize, horders, horders', hexact, rewrite_setStatus hf hp]

theorem reject_returns (h : s.shared.Stocked) :
    (s.reject p).isSome = s.shared.gateway.isSome ∧
    ∀ t ∈ s.reject p, t.shared.Stocked ∧ t.shared.gateway.isSome = s.shared.gateway.isSome := by
  simp only [reject]
  cases hg : s.shared.gateway with
  | none => exact ⟨rfl, fun t ht => by cases ht⟩
  | some g =>
    obtain ⟨x, hx, hstocked⟩ := (h g hg).sendReport
      (rejection (setStatus p .REJECTED s.orders p)) (-1)
    rw [Option.bind_some, hx, Option.map_some]
    refine ⟨rfl, fun t ht => ?_⟩
    obtain rfl := Option.some.inj ht
    exact ⟨fun g' hg' => Option.some.inj hg' ▸ hstocked, rfl⟩

theorem sendFills_returns (p : OrderPtr) (fs : List Fill) (s : EngineRun)
    (h : s.shared.Stocked) :
    ∃ t, s.sendFills p fs = some t ∧ t.shared.Stocked ∧
      t.shared.gateway.isSome = s.shared.gateway.isSome := by
  simp only [sendFills]
  split
  · simp only [sendFill]
    cases hg : s.shared.gateway with
    | none => exact ⟨_, rfl, fun g' hg' => h g' hg', by rw [book, hg]⟩
    | some g =>
      obtain ⟨x, hx, hstocked⟩ := (h g hg).sendOrder (s.orders p) (-1)
      dsimp only
      rw [hx, Option.map_some, Option.map_some]
      exact ⟨_, rfl, fun g' hg' => Option.some.inj hg' ▸ hstocked, rfl⟩
  · exact ⟨_, rfl, h, rfl⟩

/-- With a pool that always answers, a call returns when a refusal finds a gateway, and matching
ends. -/
theorem processOrder_returns (h : s.shared.Stocked) :
    (s.processOrder p).isSome =
      (if s.shared.checkRisk (s.orders p) = false then s.shared.gateway.isSome
      else (OrderBook.match (some p) ⟨s.engine.mOrderBook,
        Function.update s.orders p (s.orders p).toLimit, []⟩).isSome) ∧
    ∀ r ∈ s.processOrder p, r.2.shared.Stocked ∧
      r.2.shared.gateway.isSome = s.shared.gateway.isSome := by
  rw [processOrder]
  split
  · obtain ⟨hreturns, hafter⟩ := reject_returns (p := p) h
    rw [Option.isSome_map, hreturns]
    refine ⟨rfl, fun r hr => ?_⟩
    obtain ⟨t, ht, rfl⟩ := Option.map_eq_some_iff.1 hr
    exact hafter t ht
  · dsimp only
    cases hm : OrderBook.match (some p) ⟨s.engine.mOrderBook,
        Function.update s.orders p (s.orders p).toLimit, []⟩ with
    | none => exact ⟨rfl, fun r hr => by cases hr⟩
    | some x =>
      obtain ⟨t, ht, hafter⟩ := sendFills_returns p x.2.fills
        (book (makerBookings x.2.orders x.2.fills)
          { s with engine.mOrderBook := x.2.book, orders := x.2.orders }) h
      rw [Option.bind_some, ht, Option.map_some]
      refine ⟨rfl, fun r hr => ?_⟩
      obtain rfl := Option.some.inj hr
      exact hafter

end EngineRun

end Velox
