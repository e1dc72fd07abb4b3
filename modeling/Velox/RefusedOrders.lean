import Velox.EngineLocality

namespace Velox
set_option autoImplicit true

variable {p q : OrderPtr} {orders : OrderHeap} {ps : List OrderPtr}

namespace ExecutionGateway

def waiting (g : ExecutionGateway) : ℕ := (g.mWorkerQueues.map fun q => q.items.length).sum

variable {g g' : ExecutionGateway} {r : ExecutionReport} {workerId : Int32} {ok : Bool}

theorem length_push_le (q : ReportQueue) (out : ReportPtr) :
    (q.push out).2.items.length ≤ q.items.length + 1 := by
  rw [SPSCQueue.push]
  split
  · rw [List.length_append]
    exact le_rfl
  · exact Nat.le_succ _

theorem sum_set_le {qs : List ReportQueue} {w : ℕ} {q : ReportQueue}
    (hq : q.items.length ≤ (qs.getD w {}).items.length + 1) :
    ((qs.set w q).map fun q => q.items.length).sum ≤
      (qs.map fun q => q.items.length).sum + 1 := by
  induction qs generalizing w with
  | nil => exact Nat.le_succ _
  | cons x qs ih =>
    cases w with
    | zero =>
      rw [List.getD_cons_zero] at hq
      simp only [List.set_cons_zero, List.map_cons, List.sum_cons]
      omega
    | succ w =>
      rw [List.getD_cons_succ] at hq
      have := ih hq
      simp only [List.set_cons_succ, List.map_cons, List.sum_cons]
      omega

theorem waiting_sendReport (h : g.sendReport r workerId = some (ok, g')) :
    g'.waiting ≤ g.waiting + 1 := by
  have hqueues : (g.selectWorker workerId).2.mWorkerQueues = g.mWorkerQueues := by
    rw [selectWorker]
    split <;> rfl
  simp only [sendReport] at h
  split at h
  · cases h
    exact Nat.le_succ _
  · split at h
    · cases h
      rw [waiting, hqueues]
      exact Nat.le_succ _
    · rw [Option.map_eq_some_iff] at h
      obtain ⟨out, -, he⟩ := h
      obtain ⟨-, rfl⟩ := Prod.mk.inj he
      simp only [waiting, hqueues]
      exact sum_set_le (length_push_le _ _)

end ExecutionGateway

namespace EngineRun

variable {s t : EngineRun}

def incoming (s : EngineRun) : List OrderPtr := s.engine.mIncomingOrders.items

def reportAll (orders : OrderHeap) (ps : List OrderPtr) (g : ExecutionGateway) :
    Option ExecutionGateway :=
  ps.foldlM (fun g p => (g.sendReport (rejection (orders p)) (-1)).map Prod.snd) g

/-- What a matching cycle on refused orders may do: reject and count them, and report each of them
once. -/
structure OnlyRejects (s t : EngineRun) : Prop where
  book : t.engine.mOrderBook = s.engine.mOrderBook
  others : ∀ q, q ∉ s.incoming → t.orders q = s.orders q
  rejected : ∀ q ∈ s.incoming, t.orders q = { s.orders q with status := .REJECTED }
  positions : t.shared.positionManager = s.shared.positionManager
  risk : t.shared.riskManager = s.shared.riskManager
  counted : t.engine.mRejectCount = s.engine.mRejectCount + UInt64.ofNat s.incoming.length
  uncounted : t.engine.mMatchCount = s.engine.mMatchCount ∧
    t.engine.mPartialCount = s.engine.mPartialCount
  drained : t.incoming = []
  reported : t.shared.gateway = s.shared.gateway.bind (reportAll s.orders s.incoming)
  waiting : ∀ g ∈ s.shared.gateway, ∀ g' ∈ t.shared.gateway,
    g'.waiting ≤ g.waiting + s.incoming.length

theorem checkRisk_setStatus (c : Collaborators) (p q : OrderPtr) (orders : OrderHeap) :
    c.checkRisk (setStatus p .REJECTED orders q) = c.checkRisk (orders q) := by
  refine setStatus_static (g := c.checkRisk) (fun o st => ?_) p q _ orders
  rw [Collaborators.checkRisk, Collaborators.checkRisk]
  split <;> rfl

theorem rejection_setStatus (p q : OrderPtr) (st : OrderStatus) (orders : OrderHeap) :
    rejection (setStatus p st orders q) = rejection (orders q) :=
  setStatus_static (g := rejection) (fun _ _ => rfl) p q st orders

/-- The engine after its oldest order is refused and the gateway has taken the report. -/
def refused (s : EngineRun) (p : OrderPtr) (ps : List OrderPtr) (g : ExecutionGateway) : EngineRun where
  engine := { s.engine with
    mIncomingOrders := ⟨ps⟩
    mRejectCount := s.engine.mRejectCount + 1 }
  shared := { s.shared with gateway := some g }
  orders := setStatus p .REJECTED s.orders

section Refuse

variable {g g' : ExecutionGateway} {ok : Bool} (hin : s.incoming = p :: ps)
  (hg : s.shared.gateway = some g)
  (hsend : g.sendReport (rejection (s.orders p)) (-1) = some (ok, g'))
include hin hg hsend

theorem refuse_turn (hr : s.shared.checkRisk (s.orders p) = false) :
    s.matchCycleBody = some (.inr (s.refused p ps g')) := by
  change s.engine.mIncomingOrders.items = p :: ps at hin
  simp only [matchCycleBody, SPSCQueue.pop, hin, processOrder, hr, if_true, reject, hg,
    Option.bind_some, rejection_setStatus, hsend, Option.map_some]
  rfl

theorem OnlyRejects.cons (ht : OnlyRejects (s.refused p ps g') t) : OnlyRejects s t where
  book := ht.book
  others := fun q hq => by
    rw [hin, List.mem_cons, not_or] at hq
    rw [ht.others q hq.2]
    exact setStatus_other hq.1
  rejected := fun q hq => by
    rw [hin] at hq
    have hself : (s.refused p ps g').orders p = { s.orders p with status := .REJECTED } :=
      setStatus_self
    by_cases hps : q ∈ ps
    · rw [ht.rejected q hps]
      by_cases hqp : q = p
      · rw [hqp, hself]
      · exact congrArg (fun o : Order => { o with status := .REJECTED }) (setStatus_other hqp)
    · obtain rfl := (List.mem_cons.1 hq).resolve_right hps
      rw [ht.others q hps, hself]
  positions := ht.positions
  risk := ht.risk
  counted := by
    rw [ht.counted, hin, List.length_cons]
    change s.engine.mRejectCount + 1 + UInt64.ofNat ps.length = _
    rw [UInt64.ofNat_add, UInt64.add_assoc, UInt64.add_comm 1]
    rfl
  uncounted := ht.uncounted
  drained := ht.drained
  reported := by
    rw [ht.reported, hg, hin]
    change reportAll (setStatus p .REJECTED s.orders) ps g' = reportAll s.orders (p :: ps) g
    simp only [reportAll, List.foldlM_cons, hsend, Option.map_some, rejection_setStatus]
    rfl
  waiting := fun g₀ hg₀ g'' hg'' => by
    obtain rfl := Option.some.inj (hg.symm.trans hg₀)
    have hrest := ht.waiting g' rfl g'' hg''
    have hone := ExecutionGateway.waiting_sendReport hsend
    rw [hin, List.length_cons]
    change g''.waiting ≤ g'.waiting + ps.length at hrest
    omega

end Refuse

theorem cycle_idle (hin : s.incoming = []) : s.runMatchCycle = some s ∧ OnlyRejects s s := by
  constructor
  · change s.engine.mIncomingOrders.items = [] at hin
    rw [runMatchCycle, hin]
    refine Loop.run_leave ?_ 0
    simp only [matchCycleBody, SPSCQueue.pop, hin]
  · refine ⟨rfl, fun _ _ => rfl, fun q hq => ?_, rfl, rfl, ?_, ⟨rfl, rfl⟩, hin, ?_, fun g hg g' hg' => ?_⟩
    · rw [hin] at hq
      cases hq
    · rw [hin]
      exact (UInt64.add_zero _).symm
    · rw [hin]
      cases s.shared.gateway <;> rfl
    · obtain rfl := Option.some.inj (hg.symm.trans hg')
      exact Nat.le_add_right _ _

theorem cycle_rejects (hr : ∀ p ∈ s.incoming, s.shared.checkRisk (s.orders p) = false)
    (hpool : s.shared.Stocked) (hg : s.shared.gateway.isSome) :
    ∃ t, s.runMatchCycle = some t ∧ OnlyRejects s t := by
  generalize hin : s.incoming = ps
  induction ps generalizing s with
  | nil => exact ⟨s, cycle_idle hin⟩
  | cons p ps ih =>
    obtain ⟨g, hg⟩ := Option.isSome_iff_exists.1 hg
    obtain ⟨⟨ok, g'⟩, hsend, hpool'⟩ := (hpool g hg).sendReport (rejection (s.orders p)) (-1)
    have hp : s.shared.checkRisk (s.orders p) = false := hr p (by rw [hin]; exact List.mem_cons_self)
    obtain ⟨t, ht, honly⟩ := ih (s := s.refused p ps g')
      (fun q hq => by
        refine (checkRisk_setStatus s.shared p q s.orders).trans (hr q ?_)
        rw [hin]
        exact List.mem_cons_of_mem p hq)
      (fun g₀ hg₀ => Option.some.inj hg₀ ▸ hpool') rfl rfl
    refine ⟨t, ?_, honly.cons hin hg hsend⟩
    have hlen : s.engine.mIncomingOrders.items.length = ps.length + 1 := congrArg List.length hin
    rw [runMatchCycle, hlen, Loop.run_again (refuse_turn hin hg hsend hp)]
    exact ht

theorem cycle_stops (hin : s.incoming = p :: ps) (hr : s.shared.checkRisk (s.orders p) = false)
    (hg : s.shared.gateway = none) : s.runMatchCycle = none := by
  change s.engine.mIncomingOrders.items = p :: ps at hin
  rw [runMatchCycle, Loop.run]
  simp only [matchCycleBody, SPSCQueue.pop, hin, processOrder, hr, if_true, reject, hg,
    Option.bind_none, Option.map_none]

end EngineRun

/-- A matching cycle on orders that the risk manager refuses runs to the end and only rejects them
exactly when there is a gateway or no order; the position manager may be absent. -/
theorem refused_without_effect_iff {s : EngineRun}
    (hr : ∀ p ∈ s.incoming, s.shared.checkRisk (s.orders p) = false) (hpool : s.shared.Stocked) :
    (∃ t, s.runMatchCycle = some t ∧ EngineRun.OnlyRejects s t) ↔
      s.incoming = [] ∨ s.shared.gateway.isSome := by
  constructor
  · rintro ⟨t, ht, -⟩
    cases hin : s.incoming with
    | nil => exact .inl rfl
    | cons p ps =>
      right
      cases hg : s.shared.gateway with
      | some g => rfl
      | none =>
        rw [EngineRun.cycle_stops hin (hr p (by rw [hin]; exact List.mem_cons_self)) hg] at ht
        cases ht
  · rintro (hin | hg)
    · exact ⟨s, EngineRun.cycle_idle hin⟩
    · exact EngineRun.cycle_rejects hr hpool hg

/-- An engine with two waiting orders while the circuit breaker is active, and no position manager. -/
def haltedEngine (gateway : Option ExecutionGateway) : EngineRun where
  engine := { MatchingEngine.new [] with mIncomingOrders := ⟨[1, 2]⟩ }
  shared := { riskManager := some { mCircuitBreaker := true }, gateway }
  orders := fun _ => { quantity := 5, remainingQuantity := 5 }

theorem refused_without_effect_halted : ∃ t,
    (haltedEngine (some { mWorkerQueues := [{}], acquires := fun _ => some 0 })).runMatchCycle =
      some t ∧
    EngineRun.OnlyRejects
      (haltedEngine (some { mWorkerQueues := [{}], acquires := fun _ => some 0 })) t := by
  refine (refused_without_effect_iff (fun p hp => rfl) fun g hg n => ?_).2 (.inr rfl)
  obtain rfl := Option.some.inj hg
  rfl

/-- Without a gateway the halted engine does not survive its first waiting order. -/
theorem refusal_without_gateway :
    (∀ p ∈ (haltedEngine none).incoming,
      (haltedEngine none).shared.checkRisk ((haltedEngine none).orders p) = false) ∧
    ¬ ∃ t, (haltedEngine none).runMatchCycle = some t := by
  refine ⟨fun p hp => rfl, ?_⟩
  rintro ⟨t, ht⟩
  have hin : (haltedEngine none).incoming = [1, 2] := rfl
  rw [EngineRun.cycle_stops hin rfl rfl] at ht
  cases ht

end Velox
