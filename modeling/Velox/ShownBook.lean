import Velox.EngineSession
import Velox.SymbolEngine
import Velox.Reference

namespace Velox
set_option autoImplicit true

open OrderBook PriceLevel

/-- An engine that keeps its waiting orders in a list and matches them in a naive book. -/
structure NaiveEngine where
  pending : List (OrderPtr × Order) := []
  processed : List OrderPtr := []
  book : RefBook := {}

namespace NaiveEngine

/-- Orders beyond the 65536 that may wait are turned away. -/
def submit (p : OrderPtr) (o : Order) (e : NaiveEngine) : NaiveEngine :=
  if e.pending.length < 65536 then { e with pending := e.pending ++ [(p, o)] } else e

def process (x : OrderPtr × Order) (e : NaiveEngine) : NaiveEngine where
  pending := e.pending.tail
  processed := x.1 :: e.processed
  book := (e.book.match ⟨x.1, x.2.orderId, x.2.toLimit.price⟩ x.2.isBuy
    x.2.remainingQuantity.toNat).1

def cycle (e : NaiveEngine) : NaiveEngine := e.pending.foldl (fun e x => e.process x) e

def cancel (id : UInt64) (e : NaiveEngine) : NaiveEngine := { e with book := e.book.cancel id }

end NaiveEngine

/-- The engine of a symbol, the orders submitted to it so far, and a naive engine that was given the
same requests. -/
structure SymbolSession where
  engine : SymbolEngine
  submitted : List OrderPtr
  naive : NaiveEngine

inductive SymbolEvent
  | submit (p : OrderPtr) (o : Order)
  | cycle
  | cancel (id : UInt64)
  deriving DecidableEq

/-- The steps after which the book shown is compared with the one traded in. -/
def SymbolEvent.Settles : SymbolEvent → Prop
  | .submit .. => False
  | _ => True

/-- Through that many turns of the matching cycle no ring has more than 127 slots in use. -/
def EngineRun.RoomyTurns : ℕ → EngineRun → Prop
  | 0, r => r.engine.mOrderBook.Roomy
  | n + 1, r => r.engine.mOrderBook.Roomy ∧
    ∀ t, r.matchCycleBody = some (.inr t) → EngineRun.RoomyTurns n t

namespace SymbolSession

def start (symbol : List UInt8) (shared : Collaborators) : SymbolSession :=
  ⟨SymbolEngine.new symbol shared, [], {}⟩

def orders (s : SymbolSession) : OrderHeap := s.engine.mEngine.orders

def write (s : SymbolSession) (p : OrderPtr) (o : Order) : SymbolEngine :=
  { s.engine with mEngine.orders := Function.update s.orders p o }

/-- A fresh order with a new id that passes the risk check is submitted, the waiting orders are
processed, an order is cancelled; no ring ever has more than 127 slots in use. -/
inductive Step : SymbolSession → SymbolEvent → SymbolSession → Prop
  | submit {s : SymbolSession} {p : OrderPtr} {o : Order} (hp : p ∉ s.submitted)
      (hid : ∀ q ∈ s.submitted, (s.orders q).orderId ≠ o.orderId) (ho : o.Fresh)
      (hrisk : s.engine.mEngine.shared.checkRisk o = true) :
      Step s (.submit p o)
        ⟨((s.write p o).onMarketOrder (some p)).2, p :: s.submitted, s.naive.submit p o⟩
  | cycle {s : SymbolSession} {t : SymbolEngine} (h : s.engine.runMatchCycle = some t)
      (hroom : s.engine.mEngine.RoomyTurns s.engine.mEngine.engine.mIncomingOrders.items.length) :
      Step s .cycle ⟨t, s.submitted, s.naive.cycle⟩
  | cancel {s : SymbolSession} (id : UInt64)
      (hroom : (s.engine.cancelOrder id).2.mEngine.engine.mOrderBook.Roomy) :
      Step s (.cancel id) ⟨(s.engine.cancelOrder id).2, s.submitted, s.naive.cancel id⟩

/-- The processed orders of a side that are neither filled nor cancelled. -/
def liveOrders (s : SymbolSession) (isBid : Bool) : List OrderPtr :=
  s.naive.processed.filter fun p => isLive s.orders p && (s.orders p).isBuy == isBid

/-- The book that the engine shows has these orders on each side, and their total as depth. -/
def ShowsTraded (s : SymbolSession) : Prop :=
  ∀ isBid, (∀ p, p ∈ (s.engine.orderBook.sideQueue s.orders isBid).map Prod.fst ↔
      p ∈ s.liveOrders isBid) ∧
    s.engine.orderBook.depth isBid =
      UInt32.ofNat ((s.liveOrders isBid).map (units s.orders)).sum

end SymbolSession

/-- An engine and a naive engine in the same state: the orders processed are the known ones, those
pending are in memory as they were submitted. -/
structure Tracks (r : EngineRun) (e : NaiveEngine) : Prop where
  intact : r.engine.mOrderBook.Intact r.orders e.processed
  refers : (⟨r.engine.mOrderBook, r.orders, e.processed⟩ : Session).reference = e.book
  queue : r.engine.mIncomingOrders.items = e.pending.map Prod.fst
  held : ∀ x ∈ e.pending, r.orders x.1 = x.2 ∧ x.2.Fresh ∧ r.shared.checkRisk x.2 = true ∧
    x.1 ∉ e.processed
  ids : ∀ x ∈ e.pending, ∀ q ∈ e.processed, (r.orders q).orderId ≠ x.2.orderId
  distinct : e.pending.Pairwise fun x y => x.1 ≠ y.1 ∧ x.2.orderId ≠ y.2.orderId

theorem EngineRun.RoomyTurns.roomy {n : ℕ} {r : EngineRun} (h : r.RoomyTurns n) :
    r.engine.mOrderBook.Roomy := by
  cases n with
  | zero => exact h
  | succ n => exact h.1

namespace EngineSession

variable {s : EngineSession} {p : OrderPtr} {o : Order} {t : EngineRun} {out : Outcome}

theorem process_reference (h : s.book.Intact) (hp : p ∉ s.known)
    (hid : ∀ q ∈ s.known, (s.run.orders q).orderId ≠ o.orderId) (ho : o.Fresh)
    (hrisk : s.run.shared.checkRisk o = true)
    (hc : (s.call p o).processOrder p = some (out, t)) (hroom : t.engine.mOrderBook.Roomy) :
    (⟨t.engine.mOrderBook, t.orders, p :: s.known⟩ : Session).reference =
      (s.book.reference.match ⟨p, o.orderId, o.toLimit.price⟩ o.isBuy
        o.remainingQuantity.toNat).1 := by
  rcases EngineRun.processOrder_cases hc with ⟨hf, -⟩ | ⟨-, u, ha⟩
  · rw [call_self, show (s.call p o).shared = s.run.shared from rfl, hrisk] at hf
    cases hf
  obtain ⟨r, hm⟩ := accepts_call ha
  have hroom' : u.book.Roomy := ha.book ▸ hroom
  have hrefines := Session.RoomyStep.refines
    ⟨Session.Step.match hp (accepts_fresh hid) ho.toLimit hm, hroom'⟩ h
  have hmatched := h.kept.matched hp ho.toLimit hm
  have hsame : (⟨t.engine.mOrderBook, t.orders, p :: s.known⟩ : Session).reference =
      (⟨u.book, u.orders, p :: s.known⟩ : Session).reference := by
    refine RefBook.ext_sides fun side => ?_
    rw [Session.side_reference, Session.side_reference, Session.resting, Session.resting, ha.book,
      OrderBook.Kept.relabel_queue (fun q _ => accepts_same ha q)
        (fun q _ => accepts_active ha h.kept hp ho q) hmatched]
    apply List.map_congr_left
    intro x _
    rw [Prod.map_apply', Prod.map_apply', ticket, ticket, (accepts_same ha x.1).1,
      (accepts_same ha x.1).2.1]
  refine hsame.trans ((congrArg Prod.fst hrefines).symm.trans ?_)
  change (s.book.reference.match ⟨p, o.toLimit.orderId, o.toLimit.price⟩ o.toLimit.isBuy
    o.toLimit.remainingQuantity.toNat).1 = _
  rw [Order.toLimit_static (g := Order.orderId) fun _ _ _ => rfl,
    Order.toLimit_static (g := Order.isBuy) fun _ _ _ => rfl,
    Order.toLimit_static (g := Order.remainingQuantity) fun _ _ _ => rfl]

end EngineSession

namespace Tracks

variable {r t : EngineRun} {e : NaiveEngine} {p : OrderPtr} {o : Order}
  {ps : List (OrderPtr × Order)}

theorem turn (h : Tracks r e) (hpending : e.pending = (p, o) :: ps)
    (ht : r.matchCycleBody = some (.inr t)) (hroom : t.engine.mOrderBook.Roomy) :
    Tracks t (e.process (p, o)) := by
  obtain ⟨q, qs, out, hitems, hc⟩ := EngineRun.turn_spec ht
  have hqueue := h.queue
  rw [hpending, List.map_cons, hitems] at hqueue
  obtain ⟨hq, rfl⟩ := List.cons.inj hqueue
  obtain rfl : p = q := hq.symm
  have hmem : ∀ x ∈ ps, x ∈ e.pending := fun x hx => hpending ▸ List.mem_cons_of_mem _ hx
  obtain ⟨hcell, ho, hrisk, hp⟩ := h.held (p, o) (hpending ▸ List.mem_cons_self)
  have hdistinct := h.distinct
  rw [hpending, List.pairwise_cons] at hdistinct
  -- the order to be processed is already in its cell
  let s : EngineSession := ⟨{ r with engine.mIncomingOrders := ⟨ps.map Prod.fst⟩ }, e.processed, []⟩
  have hcall : s.call p o = s.run := by
    have hsame : Function.update r.orders p o = r.orders := by
      rw [← show r.orders p = o from hcell, Function.update_eq_self]
    exact congrArg (fun orders => { s.run with orders }) hsame
  change EngineRun.processOrder p s.run = _ at hc
  rw [← hcall] at hc
  have hid : ∀ q ∈ s.known, (s.run.orders q).orderId ≠ o.orderId :=
    h.ids (p, o) (hpending ▸ List.mem_cons_self)
  have hcheck : s.run.shared.checkRisk o = true := hrisk
  have hstep := EngineSession.Step.process (s := s) hp hid ho hc
  have hself : (t.orders p).orderId = o.orderId := by
    rcases EngineRun.processOrder_cases hc with ⟨hf, -⟩ | ⟨-, u, ha⟩
    · rw [EngineSession.call_self, show (s.call p o).shared = s.run.shared from rfl, hcheck] at hf
      cases hf
    · rw [EngineSession.accepts_self ha h.intact.toKept hp (g := Order.orderId) (fun _ _ => rfl)
        fun _ _ => rfl]
      exact Order.toLimit_static (g := Order.orderId) (fun _ _ _ => rfl) o
  have hknown : ∀ q ∈ e.processed, (t.orders q).orderId = (r.orders q).orderId := fun q hq => by
    rcases EngineRun.processOrder_cases hc with ⟨hf, -⟩ | ⟨-, u, ha⟩
    · rw [EngineSession.call_self, show (s.call p o).shared = s.run.shared from rfl, hcheck] at hf
      cases hf
    · exact EngineSession.accepts_known ha h.intact.toKept hp (g := Order.orderId)
        (fun _ _ => rfl) hq
  have htail : e.pending.tail = ps := by rw [hpending, List.tail_cons]
  refine ⟨?_, ?_, ?_, fun x hx => ?_, fun x hx q hq => ?_, ?_⟩
  · exact EngineSession.RoomyStep.intact ⟨hstep, hroom⟩ h.intact
  · have hbook := EngineSession.process_reference (s := s) h.intact hp hid ho hcheck hc hroom
    rw [show s.book.reference = e.book from h.refers] at hbook
    exact hbook
  · rw [EngineSession.process_queue hc]
    exact congrArg (List.map Prod.fst) htail.symm
  · rw [show (e.process (p, o)).pending = ps from htail] at hx
    obtain ⟨hcellx, hox, hriskx, hpx⟩ := h.held x (hmem x hx)
    have hne : x.1 ≠ p := (hdistinct.1 x hx).1.symm
    refine ⟨?_, hox, ?_, List.not_mem_cons_of_ne_of_not_mem hne hpx⟩
    · rw [← hcellx]
      exact EngineSession.process_other (s := s) h.intact.toKept hp hc hne hpx
    · have hsame : t.shared.riskManager = (s.call p o).shared.riskManager :=
        EngineRun.processOrder_risk hc
      rw [Collaborators.checkRisk, hsame]
      exact hriskx
  · rw [show (e.process (p, o)).pending = ps from htail] at hx
    rcases List.mem_cons.1 hq with rfl | hq
    · rw [hself]
      exact (hdistinct.1 x hx).2
    · rw [hknown q hq]
      exact h.ids x (hmem x hx) q hq
  · rw [show (e.process (p, o)).pending = ps from htail]
    exact hdistinct.2

theorem cycle (h : Tracks r e)
    (hrun : Loop.run EngineRun.matchCycleBody (e.pending.length + 1) r = some t)
    (hroom : r.RoomyTurns e.pending.length) :
    Tracks t e.cycle ∧ e.cycle.pending = [] := by
  generalize hpending : e.pending = ps at hrun hroom
  rw [NaiveEngine.cycle, hpending]
  induction ps generalizing r e with
  | nil =>
    have hbody : r.matchCycleBody = some (.inl r) := by
      rw [EngineRun.matchCycleBody, SPSCQueue.pop, h.queue, hpending]
      rfl
    rw [Loop.run_leave hbody] at hrun
    obtain rfl := Option.some.inj hrun
    exact ⟨h, hpending⟩
  | cons x ps ih =>
    obtain ⟨p, o⟩ := x
    rw [List.length_cons] at hrun
    cases hbody : r.matchCycleBody with
    | none =>
      simp only [Loop.run, hbody] at hrun
      cases hrun
    | some v =>
      cases v with
      | inl v =>
        exfalso
        simp only [EngineRun.matchCycleBody, SPSCQueue.pop, h.queue, hpending, List.map_cons,
          Option.map_eq_some_iff] at hbody
        obtain ⟨_, -, he⟩ := hbody
        cases he
      | inr v =>
        rw [Loop.run_again hbody] at hrun
        have hnext := hroom.2 v hbody
        refine ih (h.turn hpending hbody hnext.roomy) ?_ hrun hnext
        change e.pending.tail = ps
        rw [hpending, List.tail_cons]

theorem submit (h : Tracks r e) (hp : p ∉ e.processed) (hpending : p ∉ e.pending.map Prod.fst)
    (hid : ∀ q ∈ e.processed, (r.orders q).orderId ≠ o.orderId)
    (hids : ∀ x ∈ e.pending, x.2.orderId ≠ o.orderId) (ho : o.Fresh)
    (hrisk : r.shared.checkRisk o = true) :
    Tracks (EngineRun.submitOrder (some p) { r with orders := Function.update r.orders p o }).2
      (e.submit p o) := by
  let s : Session := ⟨r.engine.mOrderBook, r.orders, e.processed⟩
  have hheld : ∀ x ∈ e.pending, Function.update r.orders p o x.1 = x.2 := fun x hx => by
    rw [Function.update_of_ne fun he => hpending (List.mem_map.2 ⟨x, hx, he⟩)]
    exact (h.held x hx).1
  have hknown : ∀ q ∈ e.processed, Function.update r.orders p o q = r.orders q := fun q hq =>
    Session.write_known (s := s) hp o hq
  have hwritten : Tracks { r with orders := Function.update r.orders p o } e :=
    ⟨Session.Intact.write (s := s) hp o h.intact,
      (Session.Kept.reference_write (s := s) h.intact.toKept hp o).trans h.refers, h.queue,
      fun x hx => ⟨hheld x hx, (h.held x hx).2⟩, fun x hx q hq => by
        change (Function.update r.orders p o q).orderId ≠ _
        rw [hknown q hq]
        exact h.ids x hx q hq, h.distinct⟩
  simp only [EngineRun.submitOrder, SPSCQueue.push, NaiveEngine.submit, h.queue, List.length_map]
  split
  · refine ⟨hwritten.intact, hwritten.refers, ?_, fun x hx => ?_, fun x hx q hq => ?_, ?_⟩
    · rw [List.map_append]
      rfl
    · rcases List.mem_append.1 hx with hx | hx
      · exact hwritten.held x hx
      · obtain rfl := List.mem_singleton.1 hx
        exact ⟨Function.update_self .., ho, hrisk, hp⟩
    · rcases List.mem_append.1 hx with hx | hx
      · exact hwritten.ids x hx q hq
      · obtain rfl := List.mem_singleton.1 hx
        change (Function.update r.orders p o q).orderId ≠ _
        rw [hknown q hq]
        exact hid q hq
    · refine List.pairwise_append.2 ⟨h.distinct, List.pairwise_singleton _ _, fun x hx y hy => ?_⟩
      obtain rfl := List.mem_singleton.1 hy
      exact ⟨fun he => hpending (List.mem_map.2 ⟨x, hx, he⟩), hids x hx⟩
  · exact hwritten

theorem cancel (h : Tracks r e) (id : UInt64)
    (hroom : (r.cancelOrder id).2.engine.mOrderBook.Roomy) :
    Tracks (r.cancelOrder id).2 (e.cancel id) := by
  let s : Session := ⟨r.engine.mOrderBook, r.orders, e.processed⟩
  have hkept : s.book.Kept s.orders s.known := h.intact.toKept
  have hrefines := Session.RoomyStep.refines (s := s) ⟨Session.Step.cancel id, hroom⟩ h.intact
  have hbook := congrArg Prod.fst hrefines
  refine ⟨OrderBook.Intact.cancel h.intact id, ?_, h.queue, fun x hx => ?_, fun x hx q hq => ?_,
    h.distinct⟩
  · change _ = e.book.cancel id
    rw [← h.refers]
    exact hbook.symm
  · obtain ⟨hcell, ho, hrisk, hp⟩ := h.held x hx
    exact ⟨(hkept.cancel_other id hp).trans hcell, ho, hrisk, hp⟩
  · change ((s.book.cancelOrder id s.orders).2.2 q).orderId ≠ _
    rw [hkept.cancel_static id (g := Order.orderId) fun _ => rfl]
    exact h.ids x hx q hq

end Tracks

namespace SymbolSession

variable {s t : SymbolSession} {e : SymbolEvent} {symbol : List UInt8}

/-- What every step keeps: the engine is in the state of the naive one, both know only submitted
orders, and the book that the engine shows is the one it was built with. -/
structure Sound (symbol : List UInt8) (s : SymbolSession) : Prop where
  tracks : Tracks s.engine.mEngine s.naive
  processed : ∀ p ∈ s.naive.processed, p ∈ s.submitted
  pending : ∀ x ∈ s.naive.pending, x.1 ∈ s.submitted
  shown : s.engine.orderBook = OrderBook.new symbol

theorem sound_start (symbol : List UInt8) (shared : Collaborators) :
    (start symbol shared).Sound symbol where
  tracks := {
    intact := Session.intact_start symbol
    refers := Session.reference_start symbol
    queue := rfl
    held := fun x hx => by cases hx
    ids := fun x hx => by cases hx
    distinct := .nil }
  processed := fun p hp => by cases hp
  pending := fun x hx => by cases hx
  shown := rfl

theorem mem_cycle {n : NaiveEngine} {p : OrderPtr} (h : p ∈ n.cycle.processed) :
    p ∈ n.processed ∨ p ∈ n.pending.map Prod.fst := by
  rw [NaiveEngine.cycle] at h
  generalize n.pending = ps at h ⊢
  induction ps generalizing n with
  | nil => exact .inl h
  | cons x ps ih =>
    rw [List.map_cons, List.mem_cons]
    rcases ih h with h | h
    · rcases List.mem_cons.1 h with h | h
      · exact .inr (.inl h)
      · exact .inl h
    · exact .inr (.inr h)

theorem Step.sound (hs : Step s e t) (h : s.Sound symbol) : t.Sound symbol := by
  cases hs with
  | @submit p o hp hid ho hrisk =>
    have hpending : p ∉ s.naive.pending.map Prod.fst := fun hmem => by
      obtain ⟨x, hx, rfl⟩ := List.mem_map.1 hmem
      exact hp (h.pending x hx)
    refine ⟨h.tracks.submit (fun hmem => hp (h.processed p hmem)) hpending
      (fun q hq => hid q (h.processed q hq)) (fun x hx => ?_) ho hrisk, fun q hq => ?_,
      fun x hx => ?_, h.shown⟩
    · rw [← (h.tracks.held x hx).1]
      exact hid x.1 (h.pending x hx)
    · simp only [NaiveEngine.submit, apply_ite NaiveEngine.processed, ite_self] at hq
      exact List.mem_cons_of_mem p (h.processed q hq)
    · simp only [NaiveEngine.submit] at hx
      split at hx
      · rcases List.mem_append.1 hx with hx | hx
        · exact List.mem_cons_of_mem p (h.pending x hx)
        · rw [List.mem_singleton.1 hx]
          exact List.mem_cons_self
      · exact List.mem_cons_of_mem p (h.pending x hx)
  | cycle hrun hroom =>
    rw [SymbolEngine.runMatchCycle, Option.map_eq_some_iff] at hrun
    obtain ⟨r, hr, rfl⟩ := hrun
    rw [EngineRun.runMatchCycle] at hr
    rw [h.tracks.queue, List.length_map] at hr hroom
    obtain ⟨htracks, hempty⟩ := h.tracks.cycle hr hroom
    refine ⟨htracks, fun p hp => ?_, fun x hx => ?_, h.shown⟩
    · rcases mem_cycle hp with hp | hp
      · exact h.processed p hp
      · obtain ⟨x, hx, rfl⟩ := List.mem_map.1 hp
        exact h.pending x hx
    · change x ∈ s.naive.cycle.pending at hx
      rw [hempty] at hx
      cases hx
  | cancel id hroom => exact ⟨h.tracks.cancel id hroom, h.processed, h.pending, h.shown⟩

theorem Sound.mem_liveOrders (h : s.Sound symbol) (isBid : Bool) (p : OrderPtr) :
    p ∈ s.liveOrders isBid ↔
      p ∈ (s.engine.mEngine.engine.mOrderBook.sideQueue s.orders isBid).map Prod.fst := by
  have hintact := h.tracks.intact
  rw [liveOrders, List.mem_filter, Bool.and_eq_true, beq_iff_eq, List.mem_map]
  constructor
  · rintro ⟨hp, hlive, rfl⟩
    exact ⟨_, hintact.queued p hp hlive, rfl⟩
  · rintro ⟨x, hx, rfl⟩
    obtain ⟨l, hl, hmem⟩ := mem_sideQueue.1 hx
    obtain ⟨hside, hlive, -⟩ := hintact.ladder.static_of_mem hx
    exact ⟨hintact.ringed isBid l hl _ (mem_liveQueue.1 hmem).1, hlive, hside⟩

theorem Sound.liveOrders_eq_nil_iff (h : s.Sound symbol) (isBid : Bool) :
    s.liveOrders isBid = [] ↔ s.naive.book.side isBid = [] := by
  rw [← h.tracks.refers, Session.side_reference, Session.resting, List.map_eq_nil_iff,
    List.eq_nil_iff_forall_not_mem]
  simp only [h.mem_liveOrders]
  rw [← List.eq_nil_iff_forall_not_mem, List.map_eq_nil_iff]
  rfl

/-- The book shown is empty, so it shows what is traded when nothing is left to trade. -/
theorem Sound.shows_iff (h : s.Sound symbol) : s.ShowsTraded ↔ s.naive.book = {} := by
  have hqueue : ∀ isBid, s.engine.orderBook.sideQueue s.orders isBid = [] := fun isBid => by
    rw [h.shown]
    exact sideQueue_new _ _ isBid
  have hdepth : ∀ isBid, s.engine.orderBook.depth isBid = 0 := fun isBid => by
    rw [h.shown]
    cases isBid <;> rfl
  constructor
  · intro hshows
    refine RefBook.ext_sides fun isBid => ?_
    rw [(h.liveOrders_eq_nil_iff isBid).1 ?_]
    · cases isBid <;> rfl
    · refine List.eq_nil_iff_forall_not_mem.2 fun p hp => ?_
      have hmem := ((hshows isBid).1 p).2 hp
      rw [hqueue] at hmem
      cases hmem
  · intro hempty isBid
    have hnone : s.liveOrders isBid = [] := by
      rw [h.liveOrders_eq_nil_iff, hempty]
      cases isBid <;> rfl
    rw [hqueue, hdepth, hnone]
    exact ⟨fun p => Iff.rfl, rfl⟩

theorem sound_of_runs {shared : Collaborators} (h : Runs Step (start symbol shared) ts s) :
    s.Sound symbol :=
  h.invariant (sound_start symbol shared) fun _ _ _ hi hs => hs.sound hi

/-- The book that the engine shows is the one it trades in, after every cycle and cancel of a run,
exactly when the requests so far leave a naive book empty each time. -/
theorem shows_traded_iff {shared : Collaborators} (h : Runs Step (start symbol shared) ts s) :
    (∀ x ∈ ts, x.2.1.Settles → x.2.2.ShowsTraded) ↔
      ∀ x ∈ ts, x.2.1.Settles → x.2.2.naive.book = {} := by
  refine forall₂_congr fun x hx => imp_congr_right fun _ => ?_
  obtain ⟨hs, us, hus, -⟩ := h.of_mem hx
  exact (hs.sound (sound_of_runs hus)).shows_iff

instance roomyTurns : (n : ℕ) → (r : EngineRun) → Decidable (r.RoomyTurns n)
  | 0, r => inferInstanceAs (Decidable r.engine.mOrderBook.Roomy)
  | n + 1, r =>
    match h : r.matchCycleBody with
    | some (.inr t) =>
      have := roomyTurns n t
      decidable_of_iff (r.engine.mOrderBook.Roomy ∧ t.RoomyTurns n)
        (and_congr_right fun _ => ⟨fun ht u hu => by rw [h] at hu; cases hu; exact ht,
          fun hall => hall t h⟩)
    | some (.inl t) => decidable_of_iff r.engine.mOrderBook.Roomy
        ⟨fun hr => ⟨hr, fun u hu => by rw [h] at hu; cases hu⟩, And.left⟩
    | none => decidable_of_iff r.engine.mOrderBook.Roomy
        ⟨fun hr => ⟨hr, fun u hu => by rw [h] at hu; cases hu⟩, And.left⟩

def perform (s : SymbolSession) (e : SymbolEvent) : Option (SymbolEvent × SymbolSession) :=
  match e with
  | .submit p o =>
    if p ∉ s.submitted ∧ (∀ q ∈ s.submitted, (s.orders q).orderId ≠ o.orderId) ∧ o.Fresh ∧
        s.engine.mEngine.shared.checkRisk o = true then
      some (e, ⟨((s.write p o).onMarketOrder (some p)).2, p :: s.submitted, s.naive.submit p o⟩)
    else none
  | .cycle =>
    if s.engine.mEngine.RoomyTurns s.engine.mEngine.engine.mIncomingOrders.items.length then
      s.engine.runMatchCycle.map fun t => (e, ⟨t, s.submitted, s.naive.cycle⟩)
    else none
  | .cancel id =>
    if (s.engine.cancelOrder id).2.mEngine.engine.mOrderBook.Roomy then
      some (e, ⟨(s.engine.cancelOrder id).2, s.submitted, s.naive.cancel id⟩)
    else none

theorem perform_step {c : SymbolEvent} (h : s.perform c = some (e, t)) : Step s e t := by
  cases c with
  | submit p o =>
    simp only [perform] at h
    split at h
    · rename_i hok
      obtain ⟨hp, hid, ho, hrisk⟩ := hok
      obtain ⟨rfl, rfl⟩ := Prod.mk.inj (Option.some.inj h)
      exact .submit hp hid ho hrisk
    · cases h
  | cycle =>
    simp only [perform] at h
    split at h
    · rename_i hroom
      rw [Option.map_eq_some_iff] at h
      obtain ⟨u, hu, he⟩ := h
      obtain ⟨rfl, rfl⟩ := Prod.mk.inj he
      exact .cycle hu hroom
    · cases h
  | cancel id =>
    simp only [perform] at h
    split at h
    · rename_i hroom
      obtain ⟨rfl, rfl⟩ := Prod.mk.inj (Option.some.inj h)
      exact .cancel id hroom
    · cases h

theorem exists_run (symbol : List UInt8) (shared : Collaborators) (es : List SymbolEvent)
    (ok : List (SymbolSession × SymbolEvent × SymbolSession) → SymbolSession → Bool)
    (h : (Runs.play perform (start symbol shared) es).any (fun x => ok x.1 x.2) = true) :
    ∃ ts s, Runs Step (start symbol shared) ts s ∧ ok ts s = true :=
  Runs.exists_of_play (fun _ _ _ _ => perform_step) h

instance : DecidablePred SymbolEvent.Settles
  | .submit .. => isFalse id
  | .cycle => isTrue trivial
  | .cancel _ => isTrue trivial

instance : DecidableEq RefBook := fun b c =>
  decidable_of_iff (b.bids = c.bids ∧ b.asks = c.asks)
    ⟨fun h => RefBook.ext h.1 h.2, fun h => ⟨congrArg _ h, congrArg _ h⟩⟩

theorem shows_traded_iff_all_filled : ∃ ts s, Runs Step (start [65] {}) ts s ∧ ts.length = 4 ∧
    ∀ x ∈ ts, x.2.1.Settles → x.2.2.ShowsTraded := by
  obtain ⟨ts, s, hr, hok⟩ := exists_run [65] {}
    [.submit 1 (.limit 1 .BUY 100 5), .submit 2 (.limit 2 .SELL 90 5), .cycle, .cancel 1]
    (fun ts _ => decide (ts.length = 4 ∧ ∀ x ∈ ts, x.2.1.Settles → x.2.2.naive.book = {}))
    (by decide +kernel)
  obtain ⟨hlength, hempty⟩ := of_decide_eq_true hok
  exact ⟨ts, s, hr, hlength, (shows_traded_iff hr).2 hempty⟩

/-- A buy rests in the book traded in; the book shown has no bids. -/
theorem resting_buy_not_shown : ∃ ts s, Runs Step (start [65] {}) ts s ∧
    ts.map (fun x => x.2.1) = [.submit 1 (.limit 1 .BUY 100 5), .cycle] ∧
    s.liveOrders true = [1] ∧ s.engine.orderBook.mBidLevels = [] ∧
    s.engine.orderBook.mBidDepth = 0 ∧ s.engine.mEngine.engine.mOrderBook.mBidDepth = 5 ∧
    ¬ ∀ x ∈ ts, x.2.1.Settles → x.2.2.ShowsTraded := by
  obtain ⟨ts, s, hr, hok⟩ := exists_run [65] {} [.submit 1 (.limit 1 .BUY 100 5), .cycle]
    (fun ts s => decide (ts.map (fun x => x.2.1) = [.submit 1 (.limit 1 .BUY 100 5), .cycle] ∧
      s.liveOrders true = [1] ∧ s.engine.orderBook.mBidLevels = [] ∧
      s.engine.orderBook.mBidDepth = 0 ∧ s.engine.mEngine.engine.mOrderBook.mBidDepth = 5 ∧
      ∃ x ∈ ts, x.2.1.Settles ∧ x.2.2.engine.orderBook.depth true ≠
        UInt32.ofNat ((x.2.2.liveOrders true).map (units x.2.2.orders)).sum)) (by decide +kernel)
  obtain ⟨hevents, hlive, hlevels, hshown, htraded, x, hx, hs, hdepth⟩ := of_decide_eq_true hok
  exact ⟨ts, s, hr, hevents, hlive, hlevels, hshown, htraded,
    fun hall => hdepth (hall x hx hs true).2⟩

end SymbolSession

end Velox
