import Velox.ImmediateOrders
import Velox.StatusTruth

namespace Velox
set_option autoImplicit true

open Greedy OrderBook PriceLevel

variable {p q : OrderPtr} {o : Order}

namespace EngineRun

variable {s t : EngineRun} {out : Outcome} {fs : List Fill} {g : ExecutionGateway}

/-- The reports that `process_order` hands to the gateway: one for a refusal, and one for the incoming
order if it has filled anything, as it is when `match` returns. -/
def handed (p : OrderPtr) (s : EngineRun) : List ExecutionReport :=
  if s.shared.checkRisk (s.orders p) = false then [rejection (s.orders p)]
  else
    match OrderBook.match (some p)
      ⟨s.engine.mOrderBook, Function.update s.orders p (s.orders p).toLimit, []⟩ with
    | none => []
    | some (_, u) => if (u.orders p).filledQuantity > 0 then [orderReport (u.orders p)] else []

/-- The reports that the gateway takes of those handed to it. -/
def sent (p : OrderPtr) (s : EngineRun) : List ExecutionReport :=
  (s.handed p).filter fun r => s.shared.gateway.any fun g => (g.sendReport r (-1)).any Prod.fst

/-- A gateway handles reports one by one; it counts the orders among them. -/
inductive Handles : ExecutionGateway → List ExecutionReport → ExecutionGateway → Prop
  | nil (g : ExecutionGateway) : Handles g [] g
  | report {g g' : ExecutionGateway} {ok : Bool} (h : g.sendReport r (-1) = some (ok, g')) :
      Handles g [r] g'
  | order {g g' : ExecutionGateway} {o : Order} {ok : Bool}
      (h : g.sendOrder (some o) (-1) = some (ok, g')) : Handles g [orderReport o] g'

theorem processOrder_handles (h : s.processOrder p = some (out, t))
    (hg : s.shared.gateway = some g) :
    ∃ g', t.shared.gateway = some g' ∧ Handles g (s.handed p) g' := by
  rw [processOrder] at h
  rw [handed]
  split at h
  · rename_i hrisk
    rw [if_pos hrisk]
    obtain ⟨v, hv, he⟩ := Option.map_eq_some_iff.1 h
    obtain ⟨-, rfl⟩ := Prod.mk.inj he
    simp only [reject, hg, Option.bind_some, Option.map_eq_some_iff] at hv
    obtain ⟨⟨ok, g'⟩, hsend, rfl⟩ := hv
    refine ⟨g', rfl, .report (hsend.symm.trans ?_).symm⟩
    exact congrArg (fun r => g.sendReport r (-1)) (setStatus_static (g := rejection)
      (fun _ _ => rfl) p p _ s.orders)
  · rename_i hrisk
    rw [if_neg hrisk]
    obtain ⟨⟨r, u⟩, hm, h⟩ := Option.bind_eq_some_iff.1 h
    obtain ⟨v, hv, he⟩ := Option.map_eq_some_iff.1 h
    obtain ⟨-, rfl⟩ := Prod.mk.inj he
    rw [hm]
    simp only [sendFills] at hv
    change ∃ g', v.shared.gateway = some g' ∧
      Handles g (if (u.orders p).filledQuantity > 0 then [orderReport (u.orders p)] else []) g'
    split at hv
    · rename_i hf
      change (u.orders p).filledQuantity > 0 at hf
      rw [if_pos hf]
      obtain ⟨w, hw, rfl⟩ := Option.map_eq_some_iff.1 hv
      simp only [sendFill, book, hg] at hw
      obtain ⟨⟨ok, g'⟩, hsend, rfl⟩ := Option.map_eq_some_iff.1 hw
      exact ⟨g', rfl, .order hsend⟩
    · rename_i hf
      change ¬ (u.orders p).filledQuantity > 0 at hf
      rw [if_neg hf]
      obtain rfl := Option.some.inj hv
      exact ⟨g, hg, .nil g⟩

end EngineRun

/-- An engine session with the reports sent so far. -/
structure ReportSession where
  session : EngineSession
  log : List ExecutionReport := []

namespace ReportSession

open EngineSession

inductive Step : ReportSession → EngineEvent → ReportSession → Prop
  | process {s : ReportSession} {p : OrderPtr} {o : Order} {out : Outcome} {t : EngineSession}
      (h : EngineSession.Step s.session (.process p o out) t) :
      Step s (.process p o out) ⟨t, s.log ++ (s.session.call p o).sent p⟩
  | cancel {s : ReportSession} {id : UInt64} {r : Bool} {t : EngineSession}
      (h : EngineSession.Step s.session (.cancel id r) t) : Step s (.cancel id r) ⟨t, s.log⟩

def reports (s : ReportSession) (q : OrderPtr) : List ExecutionReport :=
  s.log.filter fun r => r.orderId = (s.session.run.orders q).orderId

/-- The reports sent for every order that has filled anything make up what it has filled, and the last
of them says how far that is. -/
def AddUp (s : ReportSession) : Prop :=
  ∀ q ∈ s.session.known, 0 < (s.session.run.orders q).filledQuantity →
    ((s.reports q).map fun r => r.executedQuantity.toNat).sum =
      (s.session.run.orders q).filledQuantity.toNat ∧
    ((s.reports q).getLast?.map fun r => r.status) =
      some (if (s.session.run.orders q).remainingQuantity = 0 then .FILLED else .PARTIAL)

/-- The order is refused, has no quantity, or is offered nothing. -/
def TradesNothing (s : EngineSession) : EngineEvent → Prop
  | .process _ o _ => s.run.shared.checkRisk o = true → o.quantity = 0 ∨ s.offered o = 0
  | .cancel .. => True

instance (s : EngineSession) : DecidablePred (TradesNothing s)
  | .process _ o _ => inferInstanceAs (Decidable (Collaborators.checkRisk o s.run.shared = true →
      o.quantity = 0 ∨ s.offered o = 0))
  | .cancel .. => inferInstanceAs (Decidable True)

/-- No order has filled anything, and no report says that one has. -/
structure Quiet (s : ReportSession) : Prop where
  kept : s.session.book.Kept
  whole : ∀ q ∈ s.session.known, (s.session.run.orders q).Whole
  unfilled : ∀ q ∈ s.session.known, (s.session.run.orders q).filledQuantity = 0
  news : ∀ r ∈ s.log, r.status = .NEW ∨ r.status = .REJECTED

variable {s s' : ReportSession} {t : EngineRun} {u : BookRun} {out : Outcome} {e : EngineEvent}

theorem Quiet.addUp (h : s.Quiet) : s.AddUp := fun q hq hpos => by
  rw [h.unfilled q hq] at hpos
  exact absurd hpos (UInt32.lt_irrefl 0)

/-- A report is a refusal, or has the status that the order was submitted with. -/
theorem sent_news {x : EngineSession} (h : x.book.Kept) (hp : p ∉ x.known) (ho : o.Fresh) :
    ∀ r ∈ (x.call p o).sent p, r.status = .NEW ∨ r.status = .REJECTED := by
  intro r hr
  have hr := (List.mem_filter.1 hr).1
  rw [EngineRun.handed] at hr
  split at hr
  · rw [List.mem_singleton.1 hr]
    exact .inr rfl
  · split at hr
    · cases hr
    · rename_i r' u hm
      split at hr
      · rw [List.mem_singleton.1 hr]
        left
        rw [match_call] at hm
        obtain ⟨horders, -, -⟩ := h.match_fills hp hm
        change (u.orders p).status = .NEW
        rw [horders, replay_static (g := Order.status) (fun _ _ => rfl), Session.write_self]
        exact ho.toLimit.status
      · cases hr

section Process

variable {x : EngineSession} (h : x.book.Kept) (hp : p ∉ x.known) (ho : o.Fresh)
  (hw : ∀ q ∈ x.known, (x.run.orders q).Whole)
  (hc : (x.call p o).processOrder p = some (out, t))
include h hp ho hw hc

theorem unfilled_of_quiet (hz : ∀ q ∈ x.known, (x.run.orders q).filledQuantity = 0)
    (hcond : TradesNothing x (.process p o out)) :
    ∀ q ∈ p :: x.known, (t.orders q).filledQuantity = 0 := by
  rcases EngineRun.processOrder_cases hc with ⟨-, hr⟩ | ⟨hrisk, u, ha⟩
  · rw [refuses_orders hr]
    intro q hq
    rcases List.mem_cons.1 hq with rfl | hq
    · rw [Session.write_self]
      exact ho.filled
    · rw [Session.write_known hp _ hq]
      exact hz q hq
  · have hvolume : volume out.fills = 0 := by
      rw [call_self] at hrisk
      rw [accepts_volume ha h hp, ho.remaining]
      rcases hcond hrisk with hq | hoff
      · rw [hq]
        exact Nat.zero_min _
      · rw [hoff]
        exact Nat.min_zero _
    intro q hq
    apply UInt32.toNat_inj.1
    rcases List.mem_cons.1 hq with rfl | hq
    · rw [accepts_filled_self ha h hp ho, hvolume]
      rfl
    · have hle : drawnOn q out.fills ≤ volume out.fills := amount_le_total q _
      rw [accepts_filled_known ha h hp ho hw hq, hz q hq]
      change 0 + _ = 0
      omega

omit hw in
theorem filled_of_trade (hcond : ¬ TradesNothing x (.process p o out)) :
    0 < (t.orders p).filledQuantity := by
  simp only [TradesNothing, Classical.not_imp, not_or] at hcond
  obtain ⟨hrisk, hq, hoff⟩ := hcond
  rcases EngineRun.processOrder_cases hc with ⟨hno, -⟩ | ⟨-, u, ha⟩
  · rw [call_self] at hno
    exact absurd (hno.symm.trans hrisk) Bool.false_ne_true
  · have hpos : 0 < o.quantity.toNat := Nat.pos_of_ne_zero fun hz => hq (UInt32.toNat_inj.1 hz)
    rw [UInt32.lt_iff_toNat_lt, accepts_filled_self ha h hp ho, accepts_volume ha h hp, ho.remaining]
    change 0 < min _ _
    omega

end Process

theorem Quiet.step (h : s.Quiet) (hs : Step s e s') (hcond : TradesNothing s.session e) :
    s'.Quiet := by
  cases hs with
  | process hs =>
    have hk := hs.kept h.kept
    cases hs with
    | process hp hid ho hc =>
      refine ⟨hk, fun q hq => process_whole h.kept hp hc ho h.whole hq,
        unfilled_of_quiet h.kept hp ho h.whole hc h.unfilled hcond, fun r hr => ?_⟩
      rcases List.mem_append.1 hr with hr | hr
      · exact h.news r hr
      · exact sent_news h.kept hp ho r hr
  | cancel hs =>
    have hk := hs.kept h.kept
    cases hs with
    | cancel id =>
      refine ⟨hk, fun q hq => ?_, fun q hq => ?_, h.news⟩
      · exact (EngineSession.cancel_static h.kept _ (g := Order.Whole) (fun _ => rfl) q).mpr
          (h.whole q hq)
      · rw [← h.unfilled q hq]
        exact EngineSession.cancel_static h.kept _ (g := Order.filledQuantity) (fun _ => rfl) q

theorem Quiet.tradesNothing (h : s.Quiet) (hs : Step s e s') (ha : s'.AddUp) :
    TradesNothing s.session e := by
  by_contra hcond
  cases hs with
  | @process p o out t hs =>
    cases hs with
    | process hp hid ho hc =>
      obtain ⟨-, hlast⟩ := ha p List.mem_cons_self (filled_of_trade h.kept hp ho hc hcond)
      obtain ⟨r, hr, hstatus⟩ := Option.map_eq_some_iff.1 hlast
      have hmem := (List.mem_filter.1 (List.mem_of_getLast? hr)).1
      have hnews : r.status = .NEW ∨ r.status = .REJECTED := by
        rcases List.mem_append.1 hmem with hm | hm
        · exact h.news r hm
        · exact sent_news h.kept hp ho r hm
      rcases hstatus ▸ ite_eq_or_eq _ OrderStatus.FILLED OrderStatus.PARTIAL with he | he <;>
        rw [he] at hnews <;> rcases hnews with hn | hn <;> cases hn
  | cancel hs => exact hcond trivial

def start (symbol : List UInt8) (shared : Collaborators) : ReportSession :=
  ⟨EngineSession.start symbol shared, []⟩

theorem quiet_start (symbol : List UInt8) (shared : Collaborators) :
    (start symbol shared).Quiet where
  kept := kept_start symbol shared
  whole := fun q hq => by cases hq
  unfilled := fun q hq => by cases hq
  news := fun r hr => by cases hr

/-- The reports of a run add up after each of its steps exactly when nothing is traded in it: makers
are not reported, and the taker is before its status is set. -/
theorem reports_add_up_iff {symbol : List UInt8} {shared : Collaborators}
    (h : Runs Step (start symbol shared) ts s) :
    (∀ x ∈ ts, x.2.2.AddUp) ↔ ∀ x ∈ ts, TradesNothing x.1.session x.2.1 :=
  h.throughout_iff (quiet_start symbol shared) (fun _ hq => hq.addUp)
    (fun _ _ _ hq hs hc => hq.step hs hc) fun _ _ _ hq hs ha => hq.tradesNothing hs ha

def perform (s : ReportSession) (c : EngineSession.Call) : Option (EngineEvent × ReportSession) :=
  (s.session.perform c).map fun x => (x.1, ⟨x.2,
    match x.1 with
    | .process p o _ => s.log ++ (s.session.call p o).sent p
    | .cancel .. => s.log⟩)

theorem perform_step {c : EngineSession.Call} (h : s.perform c = some (e, s')) : Step s e s' := by
  obtain ⟨⟨a, t⟩, ha, he⟩ := Option.map_eq_some_iff.1 h
  obtain ⟨rfl, rfl⟩ := Prod.mk.inj he
  cases a with
  | process p o out => exact .process (EngineSession.perform_step ha)
  | cancel id r => exact .cancel (EngineSession.perform_step ha)

theorem exists_run (shared : Collaborators) (cs : List EngineSession.Call)
    (ok : List (ReportSession × EngineEvent × ReportSession) → ReportSession → Bool)
    (h : (Runs.play perform (start [] shared) cs).any (fun x => ok x.1 x.2) = true) :
    ∃ ts s, Runs Step (start [] shared) ts s ∧ ok ts s = true :=
  Runs.exists_of_play (fun _ _ _ _ => perform_step) h

def oneWorker : Collaborators :=
  { gateway := some { mWorkerQueues := [{}], acquires := some } }

/-- Two orders that do not trade, and one of them cancelled. -/
theorem reports_add_up_untraded : ∃ ts s, Runs Step (start [] oneWorker) ts s ∧ ts.length = 3 ∧
    ∀ x ∈ ts, x.2.2.AddUp := by
  obtain ⟨ts, s, h, hok⟩ := exists_run oneWorker
    [.process 1 (.limit 1 .SELL 101 5), .process 2 (.limit 2 .BUY 100 5), .cancel 1]
    (fun ts _ => ts.length == 3 && ts.all fun x => decide (TradesNothing x.1.session x.2.1))
    (by decide +kernel)
  rw [Bool.and_eq_true, beq_iff_eq, List.all_eq_true] at hok
  exact ⟨ts, s, h, hok.1, (reports_add_up_iff h).2 fun x hx => of_decide_eq_true (hok.2 x hx)⟩

/-- Two orders fill each other: one has a report with the status NEW, the other has none. -/
theorem fill_misreported : ∃ ts s, Runs Step (start [] oneWorker) ts s ∧
    ((s.reports 2).map fun r => r.status) = [.NEW] ∧ s.reports 1 = [] ∧
    (s.session.run.orders 1).filledQuantity = 5 ∧ ¬ s.AddUp := by
  obtain ⟨ts, s, h, hok⟩ := exists_run oneWorker
    [.process 1 (.limit 1 .SELL 101 5), .process 2 (.limit 2 .BUY 101 5)]
    (fun _ s => s.session.known.contains 1 && ((s.reports 2).map fun r => r.status) == [.NEW] &&
      s.reports 1 == [] && (s.session.run.orders 1).filledQuantity == 5) (by decide +kernel)
  simp only [Bool.and_eq_true, beq_iff_eq, List.contains_iff_mem] at hok
  obtain ⟨⟨⟨hk, hnew⟩, hnone⟩, hfilled⟩ := hok
  refine ⟨ts, s, h, hnew, hnone, hfilled, fun ha => ?_⟩
  obtain ⟨hsum, -⟩ := ha 1 hk (by rw [hfilled]; decide)
  rw [hnone, hfilled] at hsum
  cases hsum

end ReportSession

end Velox
