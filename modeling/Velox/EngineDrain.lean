import Velox.Crowding
import Velox.EngineLocality
import Velox.ShownBook

namespace Velox
set_option autoImplicit true

open OrderBook

namespace EngineSession

variable {s : EngineSession} {p : OrderPtr} {o : Order} {t : EngineRun} {u : BookRun}
  {out : Outcome} {f : Int64 → ℕ}

theorem accepts_crowded (ha : EngineRun.Accepts p (s.call p o) u out t) (h : s.book.Kept)
    (hp : p ∉ s.known) (hc : s.run.engine.mOrderBook.Crowded (arrived s.run.orders s.known)) :
    t.engine.mOrderBook.Crowded (arrived t.orders (p :: s.known)) ∧
    arrived t.orders (p :: s.known) = Function.update (arrived s.run.orders s.known)
      o.toLimit.price (arrived s.run.orders s.known o.toLimit.price + 1) := by
  obtain ⟨r, hm⟩ := accepts_call ha
  have hbook := Session.Kept.match_crowded h hp hc hm
  have hself : (t.orders p).price = o.toLimit.price :=
    accepts_self ha h hp (g := Order.price) (fun _ _ => rfl) fun _ _ => rfl
  have hknown : arrived t.orders s.known = arrived s.run.orders s.known :=
    arrived_congr fun q hq => accepts_known ha h hp (g := Order.price) (fun _ _ => rfl) hq
  have harrived := arrived_cons t.orders s.known p
  rw [hself, hknown] at harrived
  rw [harrived, ha.book]
  exact ⟨hbook, rfl⟩

end EngineSession

/-- The number of orders at a price that an engine has processed or is about to process. -/
def EngineRun.expected (r : EngineRun) (e : NaiveEngine) (x : Int64) : ℕ :=
  arrived r.orders e.processed x + e.pending.countP fun y => y.2.toLimit.price = x

/-- An engine in the state of a naive one, the rings of which no more orders have entered than were
processed at their prices. -/
structure Stable (r : EngineRun) (e : NaiveEngine) : Prop where
  tracks : Tracks r e
  crowded : r.engine.mOrderBook.Crowded (arrived r.orders e.processed)
  stocked : r.shared.Stocked
  few : ∀ x, r.expected e x < maxOrders

/-- What an engine leaves alone: the orders it was not given, and the risk manager. -/
structure EngineRun.Frame (known : List OrderPtr) (r t : EngineRun) : Prop where
  orders : ∀ q, q ∉ known → t.orders q = r.orders q
  risk : t.shared.riskManager = r.shared.riskManager

theorem EngineRun.Frame.trans {known known' : List OrderPtr} {r s t : EngineRun}
    (h : r.Frame known s) (h' : s.Frame known' t) (hsub : known' ⊆ known) : r.Frame known t :=
  ⟨fun q hq => (h'.orders q fun hm => hq (hsub hm)).trans (h.orders q hq), h'.risk.trans h.risk⟩

def NaiveEngine.given (e : NaiveEngine) : List OrderPtr := e.pending.map Prod.fst ++ e.processed

def NaiveEngine.turning (r : EngineRun) (e : NaiveEngine) : EngineSession :=
  ⟨{ r with engine.mIncomingOrders := ⟨e.pending.tail.map Prod.fst⟩ }, e.processed, []⟩

namespace Tracks

variable {r t : EngineRun} {e : NaiveEngine} {p : OrderPtr} {o : Order}
  {ps : List (OrderPtr × Order)}

theorem call_turning (h : Tracks r e) (hpending : e.pending = (p, o) :: ps) :
    (e.turning r).call p o = (e.turning r).run := by
  obtain ⟨hcell, -⟩ := h.held (p, o) (hpending ▸ List.mem_cons_self)
  have hsame : Function.update r.orders p o = r.orders := by
    rw [← show r.orders p = o from hcell, Function.update_eq_self]
  exact congrArg (fun orders => { (e.turning r).run with orders }) hsame

theorem turn_call (h : Tracks r e) (hpending : e.pending = (p, o) :: ps)
    (ht : r.matchCycleBody = some (.inr t)) :
    ∃ out, ((e.turning r).call p o).processOrder p = some (out, t) := by
  obtain ⟨q, qs, out, hitems, hc⟩ := EngineRun.turn_spec ht
  have hqueue := h.queue
  rw [hpending, List.map_cons, hitems] at hqueue
  obtain ⟨rfl, hqs⟩ := List.cons.inj hqueue
  refine ⟨out, ?_⟩
  rw [h.call_turning hpending, NaiveEngine.turning, hpending, List.tail_cons, ← hqs]
  exact hc

theorem elsewhere (h : Tracks r e) (hengine : t.engine = r.engine)
    (hrisk : t.shared.riskManager = r.shared.riskManager)
    (horders : ∀ q ∈ e.given, t.orders q = r.orders q) : Tracks t e := by
  have hprocessed : ∀ q ∈ e.processed, t.orders q = r.orders q := fun q hq =>
    horders q (List.mem_append_right _ hq)
  have hpending : ∀ x ∈ e.pending, t.orders x.1 = r.orders x.1 := fun x hx =>
    horders x.1 (List.mem_append_left _ (List.mem_map_of_mem (f := Prod.fst) hx))
  have hsame : ∀ q ∈ e.processed, (t.orders q).orderId = (r.orders q).orderId ∧
      (t.orders q).price = (r.orders q).price ∧ (t.orders q).isBuy = (r.orders q).isBuy ∧
      (t.orders q).remainingQuantity = (r.orders q).remainingQuantity := fun q hq => by
    rw [hprocessed q hq]
    exact ⟨rfl, rfl, rfl, rfl⟩
  have hintact : r.engine.mOrderBook.Intact t.orders e.processed :=
    OrderBook.Intact.relabel hsame (fun q hq => by rw [hprocessed q hq]; exact .inl rfl) h.intact
  refine ⟨hengine ▸ hintact, ?_, hengine ▸ h.queue, fun x hx => ?_, fun x hx q hq => ?_, h.distinct⟩
  · rw [← h.refers, hengine]
    refine RefBook.ext_sides fun side => ?_
    have hqueue : r.engine.mOrderBook.sideQueue t.orders side =
        r.engine.mOrderBook.sideQueue r.orders side :=
      OrderBook.Kept.relabel_queue hsame (fun q hq => by rw [hprocessed q hq]; exact .inl rfl)
        h.intact.toKept side
    rw [Session.side_reference, Session.side_reference, Session.resting, Session.resting, hqueue]
    refine List.map_congr_left fun x hx => ?_
    have hx' := Session.Kept.known_of_queued
      (s := ⟨r.engine.mOrderBook, r.orders, e.processed⟩) h.intact.toKept hx
    simp only [Prod.map_apply', ticket, hprocessed x.1 hx']
  · rw [hpending x hx, Collaborators.checkRisk, hrisk]
    exact h.held x hx
  · rw [hprocessed q hq]
    exact h.ids x hx q hq

theorem turns (h : Tracks r e) (hpending : e.pending = (p, o) :: ps) (hstocked : r.shared.Stocked) :
    ∃ t, r.matchCycleBody = some (.inr t) := by
  obtain ⟨-, -, hrisk, hp⟩ := h.held (p, o) (hpending ▸ List.mem_cons_self)
  obtain ⟨x, u, hm⟩ := Session.Intact.match_returns (s := (e.turning r).book) h.intact hp o.toLimit
  have hreturns :=
    (EngineRun.processOrder_returns (s := (e.turning r).call p o) (p := p) hstocked).1
  rw [EngineSession.match_call, hm, EngineSession.call_self, if_neg (by
      rw [show ((e.turning r).call p o).shared.checkRisk o = true from hrisk]
      exact Bool.noConfusion), Option.isSome_some, h.call_turning hpending] at hreturns
  obtain ⟨y, hy⟩ := Option.isSome_iff_exists.1 hreturns
  have hpop : r.engine.mIncomingOrders.pop = some (p, ⟨e.pending.tail.map Prod.fst⟩) := by
    rw [SPSCQueue.pop, h.queue, hpending]
    rfl
  refine ⟨y.2, ?_⟩
  rw [EngineRun.matchCycleBody, hpop]
  exact congrArg (Option.map fun x => Sum.inr x.2) hy

end Tracks

namespace Stable

variable {r t : EngineRun} {e : NaiveEngine} {p : OrderPtr} {o : Order}
  {ps : List (OrderPtr × Order)}

/-- A turn of the cycle leaves the engine stable, with as many orders to expect as before. -/
theorem turn (h : Stable r e) (hpending : e.pending = (p, o) :: ps)
    (ht : r.matchCycleBody = some (.inr t)) : Stable t (e.process (p, o)) ∧
      r.Frame e.given t := by
  obtain ⟨-, -, hrisk, hp⟩ := h.tracks.held (p, o) (hpending ▸ List.mem_cons_self)
  obtain ⟨out, hc⟩ := h.tracks.turn_call hpending ht
  have hkept : (e.turning r).book.Kept := h.tracks.intact.toKept
  have hcrowded : t.engine.mOrderBook.Crowded (arrived t.orders (p :: e.processed)) ∧
      arrived t.orders (p :: e.processed) = Function.update (arrived r.orders e.processed)
        o.toLimit.price (arrived r.orders e.processed o.toLimit.price + 1) := by
    rcases EngineRun.processOrder_cases hc with ⟨hf, -⟩ | ⟨-, u, ha⟩
    · rw [EngineSession.call_self] at hf
      exact absurd (hf.symm.trans hrisk) Bool.false_ne_true
    · exact EngineSession.accepts_crowded ha hkept hp h.crowded
  obtain ⟨hcrowd, harrived⟩ := hcrowded
  have hsame : t.expected (e.process (p, o)) = r.expected e := by
    funext x
    simp only [EngineRun.expected, NaiveEngine.process, harrived, hpending, List.tail_cons,
      List.countP_cons]
    by_cases hx : x = o.toLimit.price
    · subst hx
      rw [Function.update_self, decide_eq_true rfl, if_pos rfl]
      omega
    · rw [Function.update_of_ne hx, decide_eq_false (Ne.symm hx), if_neg Bool.false_ne_true]
      rfl
  have hfew : ∀ x, t.expected (e.process (p, o)) x < maxOrders := fun x => by
    rw [hsame]
    exact h.few x
  have hroom : t.engine.mOrderBook.Roomy :=
    hcrowd.roomy fun x => (Nat.le_add_right _ _).trans_lt (hfew x)
  have hmem : p ∈ e.given := by
    rw [NaiveEngine.given, hpending]
    exact List.mem_cons_self
  refine ⟨⟨h.tracks.turn hpending ht hroom, hcrowd,
      ((EngineRun.processOrder_returns (s := (e.turning r).call p o) h.stocked).2 _ hc).1, hfew⟩,
    fun x hx => ?_, (EngineRun.processOrder_risk hc :)⟩
  exact EngineSession.process_other hkept hp hc (fun he => hx (he ▸ hmem))
    fun hk => hx (List.mem_append_right _ hk)

theorem roomy (h : Stable r e) : r.engine.mOrderBook.Roomy :=
  h.crowded.roomy fun x => (Nat.le_add_right _ _).trans_lt (h.few x)

theorem drain (h : Stable r e) : ∃ t, r.runMatchCycle = some t ∧ Stable t e.cycle ∧
    e.cycle.pending = [] ∧ r.Frame e.given t := by
  rw [EngineRun.runMatchCycle, h.tracks.queue, List.length_map]
  generalize hpending : e.pending = ps
  rw [NaiveEngine.cycle, hpending]
  induction ps generalizing r e with
  | nil =>
    have hbody : r.matchCycleBody = some (.inl r) := by
      rw [EngineRun.matchCycleBody, SPSCQueue.pop, h.tracks.queue, hpending]
      rfl
    exact ⟨r, Loop.run_leave hbody _, h, hpending, fun _ _ => rfl, rfl⟩
  | cons x ps ih =>
    obtain ⟨p, o⟩ := x
    obtain ⟨s, hs⟩ := h.tracks.turns hpending h.stocked
    obtain ⟨hstable, hframe⟩ := h.turn hpending hs
    have htail : (e.process (p, o)).pending = ps := by
      change e.pending.tail = ps
      rw [hpending, List.tail_cons]
    obtain ⟨t, ht, ht', hempty, hframe'⟩ := ih hstable htail
    refine ⟨t, ?_, ht', hempty, hframe.trans hframe' fun q hq => ?_⟩
    · rw [List.length_cons, Loop.run_again hs]
      exact ht
    · rw [NaiveEngine.given, htail] at hq
      rw [NaiveEngine.given, hpending]
      rcases List.mem_append.1 hq with hq | hq
      · exact List.mem_append_left _ (List.mem_cons_of_mem _ hq)
      · rcases List.mem_cons.1 hq with rfl | hq
        · exact List.mem_append_left _ List.mem_cons_self
        · exact List.mem_append_right _ hq

end Stable

end Velox
