import Velox.ExecutionGateway
import Velox.Lib.Runs

namespace Velox
set_option autoImplicit true

/-- The fields of a report; the symbol is the C string, without the bytes behind its end. -/
structure ReportContents where
  orderId : UInt64
  clientOrderId : UInt64
  symbol : List UInt8
  side : OrderSide
  status : OrderStatus
  executedQuantity : UInt32
  executedPrice : Int64
  timestamp : UInt64
  rejectReason : Option String
  deriving DecidableEq

def ExecutionReport.contents (r : ExecutionReport) : ReportContents where
  orderId := r.orderId
  clientOrderId := r.clientOrderId
  symbol := r.symbol.cstr
  side := r.side
  status := r.status
  executedQuantity := r.executedQuantity
  executedPrice := r.executedPrice
  timestamp := r.timestamp
  rejectReason := r.rejectReason

def Order.contents (o : Order) : ReportContents where
  orderId := o.orderId
  clientOrderId := o.clientOrderId
  symbol := o.symbol.cstr
  side := o.side
  status := o.status
  executedQuantity := o.filledQuantity
  executedPrice := o.price
  timestamp := o.matchedTimestamp
  rejectReason := none

/-- The symbol ends within its member. -/
def Symbol.Terminated (s : Symbol) : Prop := 0 ∈ s.toList

instance (s : Symbol) : Decidable s.Terminated := inferInstanceAs (Decidable (0 ∈ s.toList))

namespace Symbol

variable {s : Symbol}

theorem Terminated.length_cstr_lt (h : s.Terminated) : s.cstr.length < 8 := by
  have hprefix : s.cstr <+: s.toList := List.takeWhile_prefix _
  refine Nat.lt_of_le_of_ne (s.length_toList ▸ hprefix.length_le) fun he => ?_
  have hwhole := hprefix.eq_of_length (he.trans s.length_toList.symm)
  have hmem : (0 : UInt8) ∈ s.cstr := by
    rw [hwhole]
    exact h
  exact ne_zero_of_mem_cstr hmem rfl

theorem copy_eq_ofChars (h : s.cstr.length < 8) : s.copy = ofChars s.cstr := by
  refine Vector.ext fun i hi => ?_
  simp only [Symbol.copy, ofChars, Vector.getElem_ofFn]
  split
  · rfl
  · rw [List.getD_eq_default _ _ (by omega)]

theorem Terminated.cstr_copy (h : s.Terminated) : s.copy.cstr = s.cstr := by
  have hlt := h.length_cstr_lt
  rw [copy_eq_ofChars hlt]
  exact cstr_ofChars hlt.le fun _ hb => ne_zero_of_mem_cstr hb

theorem Terminated.copy (h : s.Terminated) : s.copy.Terminated := by
  have hlt := h.length_cstr_lt
  rw [Terminated, copy_eq_ofChars hlt, toList_ofChars hlt.le]
  exact List.mem_append_right _ (List.mem_replicate.2 ⟨by omega, rfl⟩)

end Symbol

namespace ExecutionGateway

/-- The worker whose queue a report goes to, if there is one. -/
def target (workerId : Int32) (g : ExecutionGateway) : Option ℕ :=
  if g.mWorkerQueues.isEmpty then none
  else if (g.selectWorker workerId).1 ≥ Int32.ofNat g.mWorkerQueues.length then none
  else some (g.selectWorker workerId).1.toInt.toNat

def queue (g : ExecutionGateway) (w : ℕ) : List ReportPtr := (g.mWorkerQueues.getD w {}).items

/-- Fewer than 4096 reports wait for each worker. -/
def Roomy (g : ExecutionGateway) : Prop := ∀ q ∈ g.mWorkerQueues, q.items.length < 4096

instance (g : ExecutionGateway) : Decidable g.Roomy :=
  inferInstanceAs (Decidable (∀ q ∈ g.mWorkerQueues, q.items.length < 4096))

variable {g g' : ExecutionGateway} {w k : ℕ} {workerId : Int32} {r : ExecutionReport} {ok : Bool}

theorem toInt_ofNat_le (n : ℕ) : (Int32.ofNat n).toInt ≤ n := by
  rw [Int32.toInt_ofNat', show Int32.size = 4294967296 from rfl, Int.bmod_def]
  split <;> omega

theorem target_lt (h : g.target workerId = some w) : w < g.mWorkerQueues.length := by
  rw [target] at h
  split at h
  · cases h
  · rename_i hne
    have hpos : 0 < g.mWorkerQueues.length := List.length_pos_iff.2 fun he => hne (by rw [he]; rfl)
    split at h
    · cases h
    · rename_i hlt
      have hbound := toInt_ofNat_le g.mWorkerQueues.length
      rw [ge_iff_le, Int32.not_le, Int32.lt_iff_toInt_lt] at hlt
      obtain rfl := Option.some.inj h
      omega

theorem queue_set (hw : w < g.mWorkerQueues.length) (q : ReportQueue)
    (h : g'.mWorkerQueues = g.mWorkerQueues.set w q) (k : ℕ) :
    g'.queue k = if k = w then q.items else g.queue k := by
  rw [queue, h, List.getD_eq_getElem?_getD, List.getElem?_set, queue, List.getD_eq_getElem?_getD]
  by_cases hk : k = w
  · subst hk
    simp only [if_true, hw, Option.getD_some]
  · simp only [Ne.symm hk, hk, if_false]

theorem Roomy.push (hroom : g.Roomy) (hw : w < g.mWorkerQueues.length) (out : ReportPtr) :
    ((g.mWorkerQueues.getD w {}).push out).2.items = g.queue w ++ [out] := by
  have hlt : (g.mWorkerQueues.getD w {}).items.length < 4096 := by
    rw [List.getD_eq_getElem _ _ hw]
    exact hroom _ (List.getElem_mem hw)
  rw [SPSCQueue.push, if_pos hlt, queue]

theorem sendReport_cases (hroom : g.Roomy) (h : g.sendReport r workerId = some (ok, g')) :
    (g.target workerId = none ∧ g'.reports = g.reports ∧ ∀ k, g'.queue k = g.queue k) ∨
    ∃ w out, g.target workerId = some w ∧ g.acquires g.acquired = some out ∧
      g'.reports = Function.update g.reports out { r with symbol := r.symbol.copy } ∧
      ∀ k, g'.queue k = g.queue k ++ if k = w then [out] else [] := by
  have hselect : ∀ g₁ : ExecutionGateway, (g₁.selectWorker workerId).2.mWorkerQueues =
      g₁.mWorkerQueues ∧ (g₁.selectWorker workerId).2.reports = g₁.reports ∧
      (g₁.selectWorker workerId).2.acquires = g₁.acquires ∧
      (g₁.selectWorker workerId).2.acquired = g₁.acquired := fun g₁ => by
    rw [selectWorker]
    split <;> exact ⟨rfl, rfl, rfl, rfl⟩
  obtain ⟨hqueues, hreports, hacquires, hacquired⟩ := hselect g
  simp only [sendReport, hqueues, hreports, hacquires, hacquired] at h
  split at h
  · rename_i hempty
    obtain ⟨rfl, rfl⟩ := Prod.mk.inj (Option.some.inj h)
    exact .inl ⟨by rw [target, if_pos hempty], rfl, fun _ => rfl⟩
  · rename_i hempty
    split at h
    · rename_i hbeyond
      obtain ⟨rfl, rfl⟩ := Prod.mk.inj (Option.some.inj h)
      refine .inl ⟨by rw [target, if_neg hempty, if_pos hbeyond], hreports, fun k => ?_⟩
      rw [queue, hqueues, queue]
    · rename_i hbelow
      rw [Option.map_eq_some_iff] at h
      obtain ⟨out, hout, he⟩ := h
      obtain ⟨-, rfl⟩ := Prod.mk.inj he
      have htarget : g.target workerId = some (g.selectWorker workerId).1.toInt.toNat := by
        rw [target, if_neg hempty, if_neg hbelow]
      refine .inr ⟨_, out, htarget, hout, rfl, fun k => ?_⟩
      rw [queue_set (target_lt htarget) _ rfl k]
      by_cases hk : k = (g.selectWorker workerId).1.toInt.toNat
      · subst hk
        rw [if_pos rfl, if_pos rfl, hroom.push (target_lt htarget)]
      · rw [if_neg hk, if_neg hk, List.append_nil]

theorem receiveReport_cases (workerId : Int32) (g : ExecutionGateway) :
    g.receiveReport workerId = (none, g) ∨
    ∃ (w : ℕ) (out : ReportPtr) (rest : List ReportPtr),
      workerId.toInt = (w : ℤ) ∧ g.queue w = out :: rest ∧
      (g.receiveReport workerId).1 = some (g.reports out) ∧
      (g.receiveReport workerId).2.reports = g.reports ∧
      ∀ k, (g.receiveReport workerId).2.queue k = if k = w then rest else g.queue k := by
  rw [receiveReport]
  split
  · exact .inl rfl
  · rename_i hvalid
    rw [not_or, Int32.not_lt, Int32.le_iff_toInt_le, ge_iff_le, Int32.not_le,
      Int32.lt_iff_toInt_lt, show (0 : Int32).toInt = 0 from rfl] at hvalid
    have hbound := toInt_ofNat_le g.mWorkerQueues.length
    have hw : workerId.toInt.toNat < g.mWorkerQueues.length := by omega
    simp only [SPSCQueue.pop]
    split
    · exact .inl rfl
    · rename_i out q hpop
      split at hpop
      · cases hpop
      · rename_i x xs hitems
        obtain ⟨rfl, rfl⟩ := Prod.mk.inj (Option.some.inj hpop)
        exact .inr ⟨_, x, xs, (Int.toNat_of_nonneg hvalid.1).symm, hitems, rfl, rfl,
          queue_set hw _ rfl⟩

theorem target_congr (hqueues : g'.mWorkerQueues = g.mWorkerQueues)
    (hnext : g'.mNextWorker = g.mNextWorker) : g'.target workerId = g.target workerId := by
  have hselect : (g'.selectWorker workerId).1 = (g.selectWorker workerId).1 := by
    rw [selectWorker, selectWorker, hqueues, hnext]
    split <;> rfl
  rw [target, target, hselect, hqueues]

theorem queue_addWorker (g : ExecutionGateway) (k : ℕ) : g.addWorker.queue k = g.queue k := by
  rw [queue, addWorker, queue, List.getD_eq_getElem?_getD, List.getD_eq_getElem?_getD,
    List.getElem?_append]
  split
  · rfl
  · rename_i hk
    rw [List.getElem?_eq_none (Nat.le_of_not_lt hk)]
    cases k - g.mWorkerQueues.length <;> rfl

/-- The pool object that a report to a worker is written into. -/
def acquiresFor (workerId : Int32) (g : ExecutionGateway) : Option ReportPtr :=
  (g.target workerId).bind fun _ => g.acquires g.acquired

/-- The object is not one whose pointer still waits in a queue, or it holds the same contents. -/
def SparesQueued (workerId : Int32) (c : ReportContents) (g : ExecutionGateway) : Prop :=
  ∀ out ∈ g.acquiresFor workerId, ∀ q ∈ g.mWorkerQueues,
    out ∈ q.items → (g.reports out).contents = c

instance (workerId : Int32) (c : ReportContents) (g : ExecutionGateway) :
    Decidable (g.SparesQueued workerId c) :=
  inferInstanceAs (Decidable (∀ out ∈ g.acquiresFor workerId, _))

theorem mem_queue {out : ReportPtr} :
    (∃ k, out ∈ g.queue k) ↔ ∃ q ∈ g.mWorkerQueues, out ∈ q.items := by
  constructor
  · rintro ⟨k, hk⟩
    rw [queue] at hk
    by_cases hlt : k < g.mWorkerQueues.length
    · rw [List.getD_eq_getElem _ _ hlt] at hk
      exact ⟨_, List.getElem_mem hlt, hk⟩
    · rw [List.getD_eq_default _ _ (Nat.le_of_not_lt hlt)] at hk
      cases hk
  · rintro ⟨q, hq, hout⟩
    obtain ⟨k, hlt, rfl⟩ := List.getElem_of_mem hq
    refine ⟨k, ?_⟩
    rw [queue, List.getD_eq_getElem _ _ hlt]
    exact hout

end ExecutionGateway

/-- A gateway with the contents sent to each worker and those received from it so far. -/
structure GatewayRun where
  gateway : ExecutionGateway
  sent : ℕ → List ReportContents := fun _ => []
  received : ℕ → List ReportContents := fun _ => []

inductive GatewayEvent
  | addWorker
  | sendReport (r : ExecutionReport) (workerId : Int32)
  | sendOrder (o : Option Order) (workerId : Int32)
  | receive (workerId : Int32)

namespace GatewayRun

def start (acquires : ℕ → Option ReportPtr) : GatewayRun where
  gateway := { acquires }

def send (s : GatewayRun) (workerId : Int32) (c : ReportContents) (g : ExecutionGateway) :
    GatewayRun where
  gateway := g
  sent := fun k => s.sent k ++ if s.gateway.target workerId = some k then [c] else []
  received := s.received

/-- What was received is what the object held when the call returned. -/
def receive (s : GatewayRun) (workerId : Int32) : GatewayRun where
  gateway := (s.gateway.receiveReport workerId).2
  sent := s.sent
  received := fun k => s.received k ++
    if workerId.toInt = k then
      ((s.gateway.receiveReport workerId).1.map ExecutionReport.contents).toList
    else []

/-- A call of the gateway that returns; the symbols sent are C strings, and the queues have room. -/
inductive Step : GatewayRun → GatewayEvent → GatewayRun → Prop
  | addWorker {s} : Step s .addWorker { s with gateway := s.gateway.addWorker }
  | sendReport {s : GatewayRun} {r : ExecutionReport} {workerId : Int32} {ok : Bool}
      {g : ExecutionGateway} (hroom : s.gateway.Roomy) (hr : r.symbol.Terminated)
      (h : s.gateway.sendReport r workerId = some (ok, g)) :
      Step s (.sendReport r workerId) (s.send workerId r.contents g)
  | sendOrder {s : GatewayRun} {o : Order} {workerId : Int32} {ok : Bool} {g : ExecutionGateway}
      (hroom : s.gateway.Roomy) (ho : o.symbol.Terminated)
      (h : s.gateway.sendOrder (some o) workerId = some (ok, g)) :
      Step s (.sendOrder (some o) workerId) (s.send workerId o.contents g)
  | sendNothing {s : GatewayRun} {workerId : Int32} : Step s (.sendOrder none workerId) s
  | receive {s : GatewayRun} {workerId : Int32} :
      Step s (.receive workerId) (s.receive workerId)

/-- What was received from a worker, followed by what its waiting pointers hold, is what was sent
to it. -/
def Delivers (s : GatewayRun) : Prop :=
  ∀ k, s.received k ++ (s.gateway.queue k).map (fun out => (s.gateway.reports out).contents) =
    s.sent k

/-- A send gets an object from the pool that is not waiting with other contents. -/
def SparesQueued (s : GatewayRun) : GatewayEvent → Prop
  | .sendReport r workerId => s.gateway.SparesQueued workerId r.contents
  | .sendOrder (some o) workerId => s.gateway.SparesQueued workerId o.contents
  | _ => True

variable {s t : GatewayRun} {e : GatewayEvent} {g : ExecutionGateway} {r : ExecutionReport}
  {workerId : Int32} {ok : Bool}

theorem Delivers.send_iff (h : s.Delivers) (hroom : s.gateway.Roomy) (hr : r.symbol.Terminated)
    (hsend : s.gateway.sendReport r workerId = some (ok, g)) :
    (s.send workerId r.contents g).Delivers ↔
      s.gateway.SparesQueued workerId r.contents := by
  rcases ExecutionGateway.sendReport_cases hroom hsend with
    ⟨htarget, hreports, hqueue⟩ | ⟨w, out, htarget, hout, hreports, hqueue⟩
  · refine iff_of_true (fun k => ?_) fun out hout => ?_
    · change s.received k ++ (g.queue k).map (fun x => (g.reports x).contents) = s.sent k ++ _
      rw [hqueue, hreports, h k, htarget, if_neg (Option.some_ne_none k).symm,
        List.append_nil]
    · rw [ExecutionGateway.acquiresFor, htarget] at hout
      cases hout
  · have hcontents : (g.reports out).contents = r.contents := by
      rw [hreports, Function.update_self]
      simp only [ExecutionReport.contents, hr.cstr_copy]
    have hother : ∀ x, x ≠ out → g.reports x = s.gateway.reports x := fun x hx => by
      rw [hreports, Function.update_of_ne hx]
    have hacquired : s.gateway.acquiresFor workerId = some out := by
      rw [ExecutionGateway.acquiresFor, htarget]
      exact hout
    have hsplit : ∀ k, (s.send workerId r.contents g).received k ++
        (g.queue k).map (fun x => (g.reports x).contents) =
          (s.send workerId r.contents g).sent k ↔
        (s.gateway.queue k).map (fun x => (g.reports x).contents) =
          (s.gateway.queue k).map fun x => (s.gateway.reports x).contents := fun k => by
      change s.received k ++ _ = s.sent k ++ _ ↔ _
      rw [hqueue, List.map_append, ← List.append_assoc, htarget]
      by_cases hk : k = w
      · rw [if_pos hk, if_pos (congrArg some hk.symm), List.map_singleton, hcontents,
          List.append_left_inj, ← h k, List.append_right_inj]
      · rw [if_neg hk, if_neg fun he => hk (Option.some.inj he).symm, List.map_nil,
          List.append_nil, List.append_nil, ← h k, List.append_right_inj]
    refine (forall_congr' hsplit).trans ⟨fun hall x hx q hq hmem => ?_, fun hspares k => ?_⟩
    · obtain rfl := Option.some.inj (hacquired.symm.trans hx)
      obtain ⟨k, hk⟩ := ExecutionGateway.mem_queue.2 ⟨q, hq, hmem⟩
      rw [← List.map_inj_left.1 (hall k) out hk, hcontents]
    · refine List.map_inj_left.2 fun x hx => ?_
      by_cases hxo : x = out
      · subst hxo
        obtain ⟨q, hq, hmem⟩ := ExecutionGateway.mem_queue.1 ⟨k, hx⟩
        rw [hcontents, hspares x hacquired q hq hmem]
      · rw [hother x hxo]

theorem Delivers.sendOrder_iff {o : Order} (h : s.Delivers) (hroom : s.gateway.Roomy)
    (ho : o.symbol.Terminated)
    (hsend : s.gateway.sendOrder (some o) workerId = some (ok, g)) :
    (s.send workerId o.contents g).Delivers ↔ s.gateway.SparesQueued workerId o.contents := by
  let counted : GatewayRun :=
    { s with gateway.mTotalOrders := s.gateway.mTotalOrders + 1 }
  let report : ExecutionReport := {
    orderId := o.orderId
    clientOrderId := o.clientOrderId
    side := o.side
    executedQuantity := o.filledQuantity
    executedPrice := o.price
    status := o.status
    timestamp := o.matchedTimestamp
    symbol := o.symbol.copy }
  have hcontents : report.contents = o.contents := by
    simp only [report, ExecutionReport.contents, Order.contents, ho.cstr_copy]
  have htarget : counted.gateway.target workerId = s.gateway.target workerId :=
    ExecutionGateway.target_congr rfl rfl
  have hiff := Delivers.send_iff (s := counted) (r := report) h hroom ho.copy hsend
  rw [hcontents] at hiff
  simp only [send, ExecutionGateway.SparesQueued, ExecutionGateway.acquiresFor, htarget] at hiff ⊢
  exact hiff

theorem Delivers.receive (h : s.Delivers) (workerId : Int32) : (s.receive workerId).Delivers := by
  intro k
  change (s.received k ++ _) ++ ((s.gateway.receiveReport workerId).2.queue k).map
    (fun x => ((s.gateway.receiveReport workerId).2.reports x).contents) = s.sent k
  rw [← h k]
  rcases ExecutionGateway.receiveReport_cases workerId s.gateway with
    he | ⟨w, out, rest, hw, hqueue, hresult, hreports, hrest⟩
  · rw [he, Option.map_none, Option.toList_none, ite_self, List.append_nil]
  · rw [hresult, hreports, hrest, hw, Option.map_some, Option.toList_some, List.append_assoc]
    by_cases hk : k = w
    · subst hk
      rw [if_pos rfl, if_pos rfl, hqueue, List.map_cons, List.singleton_append]
    · rw [if_neg fun he => hk (Int.ofNat_inj.1 he).symm, if_neg hk, List.nil_append]

theorem Delivers.addWorker (h : s.Delivers) :
    ({ s with gateway := s.gateway.addWorker } : GatewayRun).Delivers := by
  intro k
  change s.received k ++ (s.gateway.addWorker.queue k).map
    (fun out => (s.gateway.reports out).contents) = s.sent k
  rw [ExecutionGateway.queue_addWorker]
  exact h k

theorem Step.delivers_after (hs : Step s e t) (h : s.Delivers) : t.Delivers ↔ s.SparesQueued e := by
  cases hs with
  | addWorker => exact iff_of_true h.addWorker trivial
  | sendReport hroom hr hsend => exact h.send_iff hroom hr hsend
  | sendOrder hroom ho hsend => exact h.sendOrder_iff hroom ho hsend
  | sendNothing => exact iff_of_true h trivial
  | receive => exact iff_of_true (h.receive _) trivial

def perform (s : GatewayRun) (e : GatewayEvent) : Option (GatewayEvent × GatewayRun) :=
  match e with
  | .addWorker => some (e, { s with gateway := s.gateway.addWorker })
  | .sendReport r workerId =>
    if s.gateway.Roomy ∧ r.symbol.Terminated then
      (s.gateway.sendReport r workerId).map fun x => (e, s.send workerId r.contents x.2)
    else none
  | .sendOrder (some o) workerId =>
    if s.gateway.Roomy ∧ o.symbol.Terminated then
      (s.gateway.sendOrder (some o) workerId).map fun x => (e, s.send workerId o.contents x.2)
    else none
  | .sendOrder none _ => some (e, s)
  | .receive workerId => some (e, s.receive workerId)

theorem perform_step {c : GatewayEvent} (h : s.perform c = some (e, t)) : Step s e t := by
  cases c with
  | addWorker =>
    obtain ⟨rfl, rfl⟩ := Prod.mk.inj (Option.some.inj h)
    exact .addWorker
  | sendReport r workerId =>
    simp only [perform] at h
    split at h
    · rename_i hok
      rw [Option.map_eq_some_iff] at h
      obtain ⟨⟨ok, g⟩, hsend, he⟩ := h
      obtain ⟨rfl, rfl⟩ := Prod.mk.inj he
      exact .sendReport hok.1 hok.2 hsend
    · cases h
  | sendOrder o workerId =>
    cases o with
    | none =>
      obtain ⟨rfl, rfl⟩ := Prod.mk.inj (Option.some.inj h)
      exact .sendNothing
    | some o =>
      simp only [perform] at h
      split at h
      · rename_i hok
        rw [Option.map_eq_some_iff] at h
        obtain ⟨⟨ok, g⟩, hsend, he⟩ := h
        obtain ⟨rfl, rfl⟩ := Prod.mk.inj he
        exact .sendOrder hok.1 hok.2 hsend
      · cases h
  | receive workerId =>
    obtain ⟨rfl, rfl⟩ := Prod.mk.inj (Option.some.inj h)
    exact .receive

theorem exists_run (acquires : ℕ → Option ReportPtr) (cs : List GatewayEvent)
    (ok : List (GatewayRun × GatewayEvent × GatewayRun) → GatewayRun → Bool)
    (h : (Runs.play perform (start acquires) cs).any (fun x => ok x.1 x.2) = true) :
    ∃ ts s, Runs Step (start acquires) ts s ∧ ok ts s = true :=
  Runs.exists_of_play (fun _ _ _ _ => perform_step) h

instance (s : GatewayRun) : (e : GatewayEvent) → Decidable (s.SparesQueued e)
  | .addWorker => isTrue trivial
  | .sendReport r workerId =>
    inferInstanceAs (Decidable (s.gateway.SparesQueued workerId r.contents))
  | .sendOrder none _ => isTrue trivial
  | .sendOrder (some o) workerId =>
    inferInstanceAs (Decidable (s.gateway.SparesQueued workerId o.contents))
  | .receive _ => isTrue trivial

end GatewayRun

end Velox
