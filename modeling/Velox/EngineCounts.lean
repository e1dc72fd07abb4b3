import Velox.Conservation
import Velox.ShownBook

namespace Velox
set_option autoImplicit true

open OrderBook PriceLevel

/-- What an engine counts: fills, refused orders, and orders that were filled in part at first. -/
structure Stats where
  ordersMatched : UInt64 := 0
  ordersRejected : UInt64 := 0
  ordersPartiallyFilled : UInt64 := 0
  deriving DecidableEq

def MatchingEngine.getStats (e : MatchingEngine) : Stats where
  ordersMatched := e.mMatchCount
  ordersRejected := e.mRejectCount
  ordersPartiallyFilled := e.mPartialCount

def SymbolEngine.getStats (s : SymbolEngine) : Stats := s.mEngine.engine.getStats

/-- What a call of `process_order` adds, by its outcome and the order it leaves. -/
def Stats.count (out : Outcome) (o : Order) (st : Stats) : Stats :=
  if out.accepted = false then { st with ordersRejected := st.ordersRejected + 1 }
  else
    { st with
      ordersMatched :=
        if o.filledQuantity > 0 then
          st.ordersMatched + UInt64.ofNat (if out.fills.isEmpty then 1 else out.fills.length)
        else st.ordersMatched
      ordersPartiallyFilled :=
        if o.filledQuantity > 0 ∧ o.remainingQuantity > 0 then st.ordersPartiallyFilled + 1
        else st.ordersPartiallyFilled }

inductive EngineRequest
  | process (p : OrderPtr) (o : Order)
  | cancel (id : UInt64)

/-- A naive engine: a naive book, and counts. -/
structure RefEngine where
  book : RefBook := {}
  stats : Stats := {}

namespace RefEngine

/-- An order is matched at its limit, if it is accepted. Each quantity drawn counts as a fill; the
order itself counts when it has traded and is not done. -/
def process (accept : Order → Bool) (p : OrderPtr) (o : Order) (e : RefEngine) :
    RefEngine × Bool × List (OrderPtr × ℕ) :=
  if accept o then
    let r := e.book.match ⟨p, o.orderId, o.toLimit.price⟩ o.isBuy o.remainingQuantity.toNat
    (⟨r.1, { e.stats with
      ordersMatched := e.stats.ordersMatched + UInt64.ofNat r.2.1.length
      ordersPartiallyFilled := e.stats.ordersPartiallyFilled +
        if r.2.1 ≠ [] ∧ r.2.2 = some p then 1 else 0 }⟩, true, r.2.1)
  else ({ e with stats.ordersRejected := e.stats.ordersRejected + 1 }, false, [])

theorem process_congr {accept accept' : Order → Bool} {o : Order} (h : accept o = accept' o)
    (p : OrderPtr) (e : RefEngine) : e.process accept p o = e.process accept' p o := by
  rw [process, process, h]

def processAll (accept : Order → Bool) (e : RefEngine) (log : List (OrderPtr × Order)) : RefEngine :=
  log.foldl (fun e x => (e.process accept x.1 x.2).1) e

/-- The answer to an order is whether it is accepted, and what is drawn on which orders. -/
def step (accept : Order → Bool) (e : RefEngine) :
    EngineRequest → RefEngine × Option (Bool × List (OrderPtr × ℕ))
  | .process p o => Prod.map id some (e.process accept p o)
  | .cancel id => ({ e with book := e.book.cancel id }, none)

end RefEngine

def EngineEvent.request : EngineEvent → EngineRequest
  | .process p o _ => .process p o
  | .cancel id _ => .cancel id

/-- What `cancel_order` returns is left out. -/
def EngineEvent.answer : EngineEvent → Option (Bool × List (OrderPtr × ℕ))
  | .process _ _ out => some (out.accepted, out.fills.map Fill.pair)
  | .cancel _ _ => none

namespace EngineRun

variable {s t : EngineRun} {p : OrderPtr} {out : Outcome} {fs : List Fill}

theorem sendFills_stats (h : s.sendFills p fs = some t) : t.engine.getStats =
    { s.engine.getStats with
      ordersMatched :=
        if (s.orders p).filledQuantity > 0 then
          s.engine.mMatchCount + UInt64.ofNat (if fs.isEmpty then 1 else fs.length)
        else s.engine.mMatchCount } := by
  simp only [sendFills] at h
  split at h
  · rename_i hf
    rw [if_pos hf]
    obtain ⟨v, hv, rfl⟩ := Option.map_eq_some_iff.1 h
    rw [sendFill] at hv
    split at hv
    · obtain rfl := Option.some.inj hv
      rfl
    · obtain ⟨r, -, rfl⟩ := Option.map_eq_some_iff.1 hv
      rfl
  · rename_i hf
    rw [if_neg hf]
    obtain rfl := Option.some.inj h
    rfl

theorem processOrder_stats (hc : s.processOrder p = some (out, t)) :
    t.engine.getStats = s.engine.getStats.count out (t.orders p) := by
  rw [processOrder] at hc
  split at hc
  · obtain ⟨v, hv, he⟩ := Option.map_eq_some_iff.1 hc
    obtain ⟨rfl, rfl⟩ := Prod.mk.inj he
    obtain ⟨g, -, hv⟩ := Option.bind_eq_some_iff.1 hv
    obtain ⟨r, -, rfl⟩ := Option.map_eq_some_iff.1 hv
    rfl
  · obtain ⟨⟨r, u⟩, -, hc⟩ := Option.bind_eq_some_iff.1 hc
    obtain ⟨v, hv, he⟩ := Option.map_eq_some_iff.1 hc
    obtain ⟨rfl, rfl⟩ := Prod.mk.inj he
    have hstats := sendFills_stats hv
    have horders : v.orders = u.orders := (sendFills_spec hv).2.2.1
    have hself : ((v.finalize p).orders p) =
        { v.orders p with status := (v.orders p).settledStatus } := setStatus_self
    have hcounted : (v.finalize p).engine.getStats =
        { v.engine.getStats with
          ordersPartiallyFilled :=
            if (v.orders p).filledQuantity > 0 ∧ (v.orders p).remainingQuantity > 0 then
              v.engine.mPartialCount + 1
            else v.engine.mPartialCount } := rfl
    have hpartial : v.engine.mPartialCount = s.engine.mPartialCount :=
      congrArg Stats.ordersPartiallyFilled hstats
    rw [hcounted, hself, hpartial, hstats, horders]
    rfl

end EngineRun

namespace EngineSession

variable {s t : EngineSession} {e : EngineEvent} {r : EngineRun} {u : BookRun} {p : OrderPtr}
  {o : Order} {out : Outcome} {accept : Order → Bool}
  {ts : List (EngineSession × EngineEvent × EngineSession)}

def refEngine (s : EngineSession) : RefEngine := ⟨s.book.reference, s.run.engine.getStats⟩

theorem accepts_answer (h : s.book.Intact) (hp : p ∉ s.known)
    (hid : ∀ q ∈ s.known, (s.run.orders q).orderId ≠ o.orderId) (ho : o.Fresh)
    (ha : EngineRun.Accepts p (s.call p o) u out r) (hroom : r.engine.mOrderBook.Roomy) :
    (s.book.reference.match ⟨p, o.orderId, o.toLimit.price⟩ o.isBuy o.remainingQuantity.toNat).2 =
      (out.fills.map Fill.pair,
        if o.remainingQuantity.toNat = 0 ∨ (r.orders p).remainingQuantity > 0 then some p
        else none) := by
  obtain ⟨x, hm⟩ := accepts_call ha
  have hroom' : u.book.Roomy := ha.book ▸ hroom
  have hrefines := congrArg Prod.snd (Session.RoomyStep.refines
    ⟨Session.Step.match hp (accepts_fresh hid) ho.toLimit hm, hroom'⟩ h)
  change (s.book.reference.match ⟨p, o.toLimit.orderId, o.toLimit.price⟩ o.toLimit.isBuy
    o.toLimit.remainingQuantity.toNat).2 = (u.fills.map Fill.pair, x) at hrefines
  rw [Order.toLimit_static (g := Order.orderId) fun _ _ _ => rfl,
    Order.toLimit_static (g := Order.isBuy) fun _ _ _ => rfl,
    Order.toLimit_static (g := Order.remainingQuantity) fun _ _ _ => rfl] at hrefines
  rw [hrefines, ha.outcome, accepts_static ha (g := Order.remainingQuantity) fun _ _ => rfl]
  refine Prod.ext rfl ?_
  rcases h.kept.match_cases hp hm with ⟨hz, -, rfl⟩ | ⟨hq, -, rfl⟩
  · rw [Order.toLimit_static (g := Order.remainingQuantity) fun _ _ _ => rfl] at hz
    exact (if_pos (.inl (congrArg UInt32.toNat hz))).symm
  · rw [Order.toLimit_static (g := Order.remainingQuantity) fun _ _ _ => rfl] at hq
    exact if_congr (or_iff_right hq.ne').symm rfl rfl

theorem accepts_traded (ha : EngineRun.Accepts p (s.call p o) u out r) (h : s.book.Kept)
    (hp : p ∉ s.known) (ho : o.Fresh) : (r.orders p).filledQuantity > 0 ↔ out.fills ≠ [] := by
  rw [gt_iff_lt, UInt32.lt_iff_toNat_lt, accepts_filled_self ha h hp ho]
  constructor
  · intro hpos hnone
    rw [hnone] at hpos
    exact absurd hpos (lt_irrefl 0)
  · intro hsome
    obtain ⟨f, fs, hfs⟩ := List.exists_cons_of_ne_nil hsome
    have hpos := (accepts_fills ha h hp).2.1.quantity_pos (hfs ▸ List.mem_cons_self)
    rw [hfs, volume_cons]
    exact hpos.trans_le (Nat.le_add_right _ _)

theorem accepts_counts (ha : EngineRun.Accepts p (s.call p o) u out r) (h : s.book.Kept)
    (hp : p ∉ s.known) (ho : o.Fresh) (st : Stats) :
    st.count out (r.orders p) = { st with
      ordersMatched := st.ordersMatched + UInt64.ofNat (out.fills.map Fill.pair).length
      ordersPartiallyFilled := st.ordersPartiallyFilled + if out.fills.map Fill.pair ≠ [] ∧
        (if o.remainingQuantity.toNat = 0 ∨ (r.orders p).remainingQuantity > 0 then some p
          else none) = some p then 1 else 0 } := by
  have htraded := accepts_traded ha h hp ho
  have haccepted : ¬ out.accepted = false := by
    rw [ha.outcome]
    exact Bool.noConfusion
  rw [Stats.count, if_neg haccepted, List.length_map]
  by_cases hf : out.fills = []
  · have hnone : ¬ (r.orders p).filledQuantity > 0 := fun ht => htraded.1 ht hf
    rw [if_neg hnone, if_neg fun hc => hnone hc.1, hf, if_neg fun hc => hc.1 rfl]
    exact congrArg₂ (Stats.mk · _ ·) (UInt64.add_zero _).symm (UInt64.add_zero _).symm
  · -- an order for nothing does not trade
    have hz : ¬ o.remainingQuantity.toNat = 0 := fun hz => by
      have htaken := accepts_taken ha h hp
      rw [hz, Greedy.consume_zero] at htaken
      exact hf (List.map_eq_nil_iff.1 htaken.symm)
    have hpairs : out.fills.map Fill.pair ≠ [] := fun he => hf (List.map_eq_nil_iff.1 he)
    have hleft : (out.fills.map Fill.pair ≠ [] ∧ (if o.remainingQuantity.toNat = 0 ∨
        (r.orders p).remainingQuantity > 0 then some p else none) = some p) ↔
        (r.orders p).filledQuantity > 0 ∧ (r.orders p).remainingQuantity > 0 := by
      rw [and_iff_right hpairs, and_iff_right (htraded.2 hf),
        if_congr (or_iff_right hz) rfl rfl]
      by_cases hr : (r.orders p).remainingQuantity > 0
      · exact iff_of_true (if_pos hr) hr
      · refine iff_of_false (fun he => ?_) hr
        rw [if_neg hr] at he
        cases he
    rw [if_pos (htraded.2 hf), if_neg (by rwa [List.isEmpty_iff]), if_congr hleft rfl rfl]
    split
    · rfl
    · rw [UInt64.add_zero]

theorem process_counts (h : s.book.Intact) (hp : p ∉ s.known)
    (hid : ∀ q ∈ s.known, (s.run.orders q).orderId ≠ o.orderId) (ho : o.Fresh)
    (hc : (s.call p o).processOrder p = some (out, r)) (hroom : r.engine.mOrderBook.Roomy) :
    s.refEngine.process s.run.shared.checkRisk p o =
      (⟨(⟨r.engine.mOrderBook, r.orders, p :: s.known⟩ : Session).reference, r.engine.getStats⟩,
        out.accepted, out.fills.map Fill.pair) := by
  have hstats := EngineRun.processOrder_stats hc
  rw [RefEngine.process, hstats]
  rcases EngineRun.processOrder_cases hc with ⟨hrisk, hr⟩ | ⟨hrisk, u, ha⟩
  · rw [call_self] at hrisk
    change s.run.shared.checkRisk o = false at hrisk
    have hkept := h.kept.reference_write hp { o with status := .REJECTED }
    rw [hr.outcome, if_neg (by rw [hrisk]; exact Bool.false_ne_true), hr.book, refuses_orders hr]
    exact Prod.ext (congrArg (RefEngine.mk · _) hkept.symm) rfl
  · rw [call_self] at hrisk
    change s.run.shared.checkRisk o = true at hrisk
    have hmatch : s.book.reference.match ⟨p, o.orderId, o.toLimit.price⟩ o.isBuy
        o.remainingQuantity.toNat = (_, _) :=
      Prod.ext (process_reference h hp hid ho hrisk hc hroom).symm
        (accepts_answer h hp hid ho ha hroom)
    have haccepted : out.accepted = true := by rw [ha.outcome]
    rw [if_pos hrisk, accepts_counts ha h.kept hp ho, haccepted]
    dsimp only [refEngine]
    rw [hmatch]
    rfl

theorem RoomyStep.counts (hs : RoomyStep s e t) (h : s.book.Intact) :
    s.refEngine.step s.run.shared.checkRisk e.request = (t.refEngine, e.answer) ∧
    t.run.shared.riskManager = s.run.shared.riskManager := by
  have hroom := hs.2
  cases hs.1 with
  | process hp hid ho hc =>
    have hrisk := EngineRun.processOrder_risk hc
    exact ⟨congrArg (Prod.map id some) (process_counts h hp hid ho hc hroom), hrisk⟩
  | cancel id =>
    refine ⟨?_, rfl⟩
    have hcancel := congrArg Prod.fst (Session.RoomyStep.refines (s := s.book)
      ⟨Session.Step.cancel id, hroom⟩ h)
    exact Prod.ext (congrArg (RefEngine.mk · _) hcancel) rfl

/-- The matching engine refines a naive one. In every run in which no ring has more than 127 slots in
use the risk check gives the answers it would have given at the start, whatever has been traded; the
orders it accepts are matched as in the naive book, and the statistics are what is counted there. -/
theorem engine_refines {symbol : List UInt8} {shared : Collaborators}
    (h : Runs RoomyStep (start symbol shared) ts s) :
    Runs.transduce (RefEngine.step shared.checkRisk) {} (ts.map fun x => x.2.1.request) =
      (s.refEngine, ts.map fun x => x.2.1.answer) := by
  have hstart : (start symbol shared).refEngine = {} :=
    congrArg (RefEngine.mk · _) (Session.reference_start symbol)
  rw [← hstart]
  refine h.simulates (I := fun s => s.book.Intact ∧ s.run.shared.riskManager = shared.riskManager)
    ⟨intact_start symbol shared, rfl⟩ fun s e t ⟨hi, hrisk⟩ hs => ?_
  obtain ⟨hstep, hsame⟩ := hs.counts hi
  have hcheck : s.run.shared.checkRisk = shared.checkRisk := by
    funext o
    rw [Collaborators.checkRisk, hrisk]
    rfl
  rw [hcheck] at hstep
  exact ⟨⟨hs.intact hi, hsame.trans hrisk⟩, hstep⟩

/-- The second order is for nothing and refused; the third one takes the first and rests. -/
theorem engine_refines_partial : ∃ ts s,
    Runs RoomyStep (start [] { riskManager := some {}, gateway := some { acquires := some } }) ts s ∧
    (ts.map fun x => x.2.1.answer) =
      [some (true, []), some (false, []), some (true, [(1, 5)]), none] ∧
    s.run.engine.getStats = ⟨1, 1, 1⟩ ∧
    Runs.transduce (RefEngine.step (Collaborators.checkRisk ·
        { riskManager := some {}, gateway := some { acquires := some } })) {}
      (ts.map fun x => x.2.1.request) = (s.refEngine, ts.map fun x => x.2.1.answer) := by
  obtain ⟨ts, s, hr, hok⟩ := exists_roomy_run []
    { riskManager := some {}, gateway := some { acquires := some } }
    [.process 1 (.limit 1 .SELL 101 5), .process 2 (.limit 2 .SELL 100 0),
      .process 3 (.limit 3 .BUY 101 8), .cancel 3]
    (fun ts s => (ts.map fun x => x.2.1.answer) = [some (true, []), some (false, []),
      some (true, [(1, 5)]), none] && s.run.engine.getStats = ⟨1, 1, 1⟩) (by decide +kernel)
  rw [Bool.and_eq_true, decide_eq_true_eq, decide_eq_true_eq] at hok
  exact ⟨ts, s, hr, hok.1, hok.2, engine_refines hr⟩

end EngineSession

end Velox
