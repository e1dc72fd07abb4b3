import Velox.Cancelling
import Velox.Lib.Runs

namespace Velox
set_option autoImplicit true

open Greedy PriceLevel

/-- What is asked of a price level; an order comes with the cell that holds it. -/
inductive LevelCall
  | addOrder (p : OrderPtr) (o : Order)
  | removeOrder (p : OrderPtr)
  | matchOrder (p : OrderPtr) (o : Order)

/-- A price level, the orders in memory and those ever added to the level; beside it a plain
queue. -/
structure LevelSession where
  level : PriceLevel
  orders : OrderHeap
  added : List OrderPtr := []
  queue : List (OrderPtr × ℕ) := []

/-- What a call does to a plain queue and what it draws from it. -/
def LevelCall.queued (xs : List (OrderPtr × ℕ)) :
    LevelCall → List (OrderPtr × ℕ) × List (OrderPtr × ℕ)
  | addOrder p o => (xs ++ [(p, o.remainingQuantity.toNat)], [])
  | removeOrder p => (xs.filter fun x => x.1 ≠ p, [])
  | matchOrder _ o =>
    ((consume anyOrder o.remainingQuantity.toNat xs).rest,
      (consume anyOrder o.remainingQuantity.toNat xs).taken)

/-- Added orders are new, active and open; removed ones were added; incoming ones were not. -/
def LevelSession.Allowed (s : LevelSession) : LevelCall → Prop
  | .addOrder p o => p ∉ s.added ∧ o.isActive = true ∧ o.remainingQuantity ≠ 0
  | .removeOrder p => p ∈ s.added
  | .matchOrder p _ => p ∉ s.added

instance : DecidablePred (LevelSession.Allowed s) := fun c => by
  cases c <;> unfold LevelSession.Allowed <;> infer_instance

namespace LevelSession

def new (price : Int64) (orders : OrderHeap) : LevelSession := { level := { mPrice := price }, orders }

def write (p : OrderPtr) (o : Order) (s : LevelSession) : OrderHeap := Function.update s.orders p o

def perform (s : LevelSession) : LevelCall → Option (List Fill × LevelSession)
  | .addOrder p o =>
    some ([], { level := s.level.addOrder (some p) (s.write p o)
                orders := s.write p o
                added := p :: s.added
                queue := ((LevelCall.addOrder p o).queued s.queue).1 })
  | .removeOrder p =>
    let r := s.level.removeOrder (some p) s.orders
    some ([], { s with level := r.1
                       orders := r.2
                       queue := ((LevelCall.removeOrder p).queued s.queue).1 })
  | .matchOrder p o =>
    (PriceLevel.matchOrder (some p) ⟨s.level, s.write p o, []⟩).map fun r =>
      (r.2.fills, { s with level := r.2.level
                           orders := r.2.orders
                           queue := ((LevelCall.matchOrder p o).queued s.queue).1 })

/-- A call that is allowed, with the fills it produces. -/
def Step (s : LevelSession) (a : LevelCall × List Fill) (t : LevelSession) : Prop :=
  s.Allowed a.1 ∧ s.perform a.1 = some (a.2, t)

/-- The live orders are those of the plain queue and all of them can be reached. -/
structure Faithful (s : LevelSession) : Prop where
  live : liveQueue s.orders s.level.ring = s.queue
  total : s.level.mTotalQuantity = UInt32.ofNat (total s.queue)
  reachable : ∀ p ∈ s.added, isLive s.orders p = true → p ∈ s.level.ring

/-- A step with the fills of the plain queue, to a session that is faithful to it. -/
def Fifo (x : LevelSession × (LevelCall × List Fill) × LevelSession) : Prop :=
  x.2.1.2.map Fill.pair = (x.2.1.1.queued x.1.queue).2 ∧ x.2.2.Faithful

/-- A step that does not add an order to a ring with 127 slots in use. -/
def HasRoom (x : LevelSession × (LevelCall × List Fill) × LevelSession) : Prop :=
  ∀ p o, x.2.1.1 = .addOrder p o → x.1.level.used + 1 < maxOrders

/-- A session whose level works and has shown it. -/
structure Sound (s : LevelSession) : Prop extends Faithful s where
  wf : s.level.Wf
  known : ∀ p ∈ s.level.ring, p ∈ s.added

end LevelSession

section Steps
variable {s t : LevelSession} {p q : OrderPtr} {o : Order} {fs : List Fill}

theorem isLive_update_of_ne {orders : OrderHeap} (h : q ≠ p) :
    isLive (Function.update orders p o) q = isLive orders q :=
  (same_live (Function.update_of_ne h _ _)).1

theorem liveQueue_update {orders : OrderHeap} {ps : List OrderPtr} (h : p ∉ ps) :
    liveQueue (Function.update orders p o) ps = liveQueue orders ps := by
  refine liveQueue_congr fun q hq => same_live (Function.update_of_ne ?_ _ _)
  rintro rfl
  exact h hq

namespace LevelSession

theorem sound_new (price : Int64) (orders : OrderHeap) : (new price orders).Sound :=
  ⟨⟨rfl, rfl, fun _ hp => by cases hp⟩, wf_new price, fun _ hp => by cases hp⟩

namespace Sound

variable (h : s.Sound)
include h

theorem add (hnew : p ∉ s.added) (ha : o.isActive = true) (hq : o.remainingQuantity ≠ 0)
    (hroom : s.level.used + 1 < maxOrders) :
    Sound { level := s.level.addOrder (some p) (s.write p o)
            orders := s.write p o
            added := p :: s.added
            queue := s.queue ++ [(p, o.remainingQuantity.toNat)] } := by
  have hring : p ∉ s.level.ring := fun hp => hnew (h.known p hp)
  have hself : s.write p o p = o := Function.update_self _ _ _
  have hq' : (s.write p o p).remainingQuantity ≠ 0 := by rwa [hself]
  have hlive : isLive (s.write p o) p = true := by
    refine isLive_iff.2 ⟨by rw [hself]; exact ha, Nat.pos_of_ne_zero fun hz => hq' ?_⟩
    exact units_eq_zero_iff.1 hz
  have hunits : units (s.write p o) p = o.remainingQuantity.toNat := by rw [units, hself]
  refine ⟨⟨?_, ?_, ?_⟩, h.wf.addOrder hq' hring, ?_⟩
  · rw [ring_addOrder hq' hroom, liveQueue_append, liveQueue_cons_live hlive, liveQueue_nil, hunits,
      write, liveQueue_update hring, h.live]
  · rw [addOrder_eq hq', total_append, total_cons, total_nil, UInt32.ofNat_add, ← h.total]
    simp only [hself, Nat.add_zero, UInt32.ofNat_toNat]
  · intro q hq hl
    rw [ring_addOrder hq' hroom, List.mem_append, List.mem_singleton]
    by_cases he : q = p
    · exact .inr he
    · rw [write, isLive_update_of_ne he] at hl
      exact .inl (h.reachable q ((List.mem_cons.1 hq).resolve_left he) hl)
  · intro q hm
    exact List.mem_cons.2 ((mem_ring_addOrder hq' hm).imp_right (h.known q))

omit h in
theorem add_unreachable (ha : o.isActive = true)
    (hq : o.remainingQuantity ≠ 0) (hfull : ¬ s.level.used + 1 < maxOrders) :
    isLive (s.write p o) p = true ∧ p ∉ (s.level.addOrder (some p) (s.write p o)).ring := by
  have hself : s.write p o p = o := Function.update_self _ _ _
  have hq' : (s.write p o p).remainingQuantity ≠ 0 := by rwa [hself]
  have hlt : s.level.used < maxOrders := Ring.used_lt _ _
  refine ⟨isLive_iff.2 ⟨by rw [hself]; exact ha, Nat.pos_of_ne_zero fun hz => hq' ?_⟩, ?_⟩
  · exact units_eq_zero_iff.1 hz
  · rw [ring_addOrder_full hq' (by omega)]
    exact List.not_mem_nil

theorem remove (hp : p ∈ s.added) :
    Sound { s with level := (s.level.removeOrder (some p) s.orders).1
                   orders := (s.level.removeOrder (some p) s.orders).2
                   queue := s.queue.filter fun x => x.1 ≠ p } := by
  cases ha : (s.orders p).isActive
  · have hsame : s.level.removeOrder (some p) s.orders = (s.level, s.orders) := by
      rw [removeOrder, if_pos ha]
    have hgone : p ∉ s.queue.map Prod.fst := by
      rw [← h.live, keys_liveQueue, List.mem_filter]
      exact fun hm => absurd (isLive_iff.1 hm.2).1 (by rw [ha]; decide)
    rw [hsame, filter_ne_self hgone]
    exact h
  · obtain ⟨lvl, heq, hcut⟩ := removeOrder_spec h.wf ha
    have hor : (p ∈ s.level.ring ∧ isLive s.orders p = true) ∨ units s.orders p = 0 := by
      rcases Nat.eq_zero_or_pos (units s.orders p) with hz | hpos
      · exact .inr hz
      · have hl := isLive_iff.2 ⟨ha, hpos⟩
        exact .inl ⟨h.reachable p hp hl, hl⟩
    have hexact := hcut.exact h.wf (h.total.trans (by rw [h.live])) hor
    rw [PriceLevel.Exact, hcut.liveQueue, h.live] at hexact
    rw [heq]
    refine ⟨⟨by rw [hcut.liveQueue, h.live], hexact, ?_⟩, hcut.swept.wf,
      fun q hq => h.known q (hcut.ring_sub hq)⟩
    intro q hq hl
    rw [isLive_cancelIn, Bool.and_eq_true] at hl
    have hm : (q, units s.orders q) ∈ liveQueue s.orders s.level.ring :=
      mem_liveQueue.2 ⟨h.reachable q hq hl.1, hl.1, rfl⟩
    have hm' : (q, units s.orders q) ∈ liveQueue (cancelIn s.orders p) lvl.ring := by
      rw [hcut.liveQueue, List.mem_filter]
      exact ⟨hm, hl.2⟩
    exact (mem_liveQueue.1 hm').1

theorem matched {u : LevelRun} (hp : p ∉ s.added)
    (hm : Matched p ⟨s.level, s.write p o, []⟩ u fs)
    (hexit : units u.orders p = 0 ∨ u.level.ring = []) :
    consume anyOrder o.remainingQuantity.toNat s.queue =
      ⟨fs.map Fill.pair, liveQueue u.orders u.level.ring, units u.orders p⟩ := by
  have hring : p ∉ s.level.ring := fun hm => hp (h.known p hm)
  have hself : units (s.write p o) p = o.remainingQuantity.toNat := by
    rw [units, write, Function.update_self]
  have hdrawn := hm.drawn
  rw [hself, write, liveQueue_update hring, h.live] at hdrawn
  rw [hdrawn]
  rcases hexit with hz | hnil
  · rw [hz, consume_zero, List.append_nil]
  · rw [hnil, liveQueue_nil, consume_nil, List.append_nil]

theorem reachable_matched {u : LevelRun} (hp : p ∉ s.added)
    (hm : Matched p ⟨s.level, s.write p o, []⟩ u fs)
    (hexit : units u.orders p = 0 ∨ u.level.ring = []) (hq : q ∈ s.added)
    (hl : isLive u.orders q = true) : q ∈ u.level.ring := by
  have hqp : q ≠ p := fun he => hp (he ▸ hq)
  have hunits := hm.fair.units_maker hqp
  rw [← hm.orders] at hunits
  change units u.orders q + drawnOn q fs = units (s.write p o) q at hunits
  have hold : units (s.write p o) q = units s.orders q :=
    (same_live (Function.update_of_ne hqp _ _)).2
  have hact : (u.orders q).isActive = (s.orders q).isActive := by
    rw [hm.orders, replay_static (g := Order.isActive) (fun _ _ => rfl)]
    exact congrArg Order.isActive (Function.update_of_ne hqp _ _)
  rw [hold] at hunits
  obtain ⟨ha, hpos⟩ := isLive_iff.1 hl
  have hlive : isLive s.orders q = true := isLive_iff.2 ⟨by rw [← hact, ha], by omega⟩
  have hmem : (q, units s.orders q) ∈ s.queue := by
    rw [← h.live]
    exact mem_liveQueue.2 ⟨h.reachable q hq hlive, hlive, rfl⟩
  have hamount := amount_consume anyOrder q o.remainingQuantity.toNat s.queue
  rw [h.matched hp hm hexit] at hamount
  have hall := le_amount hmem
  rw [drawnOn] at hunits
  have hleft : 0 < amount q (liveQueue u.orders u.level.ring) := by
    simp only at hamount
    omega
  obtain ⟨a, ha⟩ := exists_mem_of_amount hleft
  exact (mem_liveQueue.1 ha).1

theorem match_open (hp : p ∉ s.added) (hq : o.remainingQuantity ≠ 0) : ∃ fs t,
    s.perform (.matchOrder p o) = some (fs, t) ∧
      fs.map Fill.pair = (consume anyOrder o.remainingQuantity.toNat s.queue).taken ∧ t.Sound := by
  have hring : p ∉ s.level.ring := fun hm => hp (h.known p hm)
  have hpos : 0 < units (s.write p o) p := by
    refine Nat.pos_of_ne_zero fun hz => hq ?_
    have hz' := units_eq_zero_iff.1 hz
    rwa [write, Function.update_self] at hz'
  obtain ⟨u, fs, heq, hm, hexit⟩ :=
    matchOrder_spec (s := ⟨s.level, s.write p o, []⟩) h.wf hring hpos
  have hdrawn := h.matched hp hm hexit
  refine ⟨fs, { s with level := u.level, orders := u.orders,
                       queue := ((LevelCall.matchOrder p o).queued s.queue).1 }, ?_, ?_, ?_⟩
  · rw [perform, heq, Option.map_some, hm.fills, List.nil_append]
  · rw [hdrawn]
  · refine ⟨⟨?_, ?_, fun q => h.reachable_matched hp hm hexit⟩, hm.wf, ?_⟩
    · simp only [LevelCall.queued, hdrawn]
    · have htotal := total_taken_add_rest anyOrder o.remainingQuantity.toNat s.queue
      have hsub : ∀ a b : UInt32, b + a - b = a := by grind
      rw [hdrawn] at htotal
      simp only [LevelCall.queued, hdrawn]
      rw [hm.total, h.total, ← htotal, UInt32.ofNat_add]
      exact hsub _ _
    · intro q hq
      obtain ⟨ps, hps⟩ := hm.gone
      exact h.known q (hps ▸ List.mem_append_right _ hq)

theorem match_empty (hp : p ∉ s.added) (hq : o.remainingQuantity = 0) : ∃ t,
    s.perform (.matchOrder p o) = some ([], t) ∧ t.Sound := by
  have hring : p ∉ s.level.ring := fun hm => hp (h.known p hm)
  have hself : (s.write p o p).remainingQuantity = 0 := by rwa [write, Function.update_self]
  refine ⟨{ s with orders := s.write p o, queue := ((LevelCall.matchOrder p o).queued s.queue).1 },
    ?_, ?_⟩
  · simp only [perform, PriceLevel.matchOrder, if_pos hself, Option.map_some]
  · have hqueue : ((LevelCall.matchOrder p o).queued s.queue).1 = s.queue := by
      simp only [LevelCall.queued, hq, UInt32.toNat_zero, consume_zero]
    rw [hqueue]
    refine ⟨⟨by rw [← h.live]; exact liveQueue_update hring, h.total, fun q hq hl => ?_⟩, h.wf,
      h.known⟩
    have hqp : q ≠ p := fun he => hp (he ▸ hq)
    exact h.reachable q hq (by rwa [← isLive_update_of_ne hqp])

theorem exists_perform {c : LevelCall} (hc : s.Allowed c) : ∃ fs t, s.perform c = some (fs, t) := by
  cases c with
  | addOrder p o => exact ⟨_, _, rfl⟩
  | removeOrder p => exact ⟨_, _, rfl⟩
  | matchOrder p o =>
    by_cases hq : o.remainingQuantity = 0
    · obtain ⟨t, ht, -⟩ := h.match_empty hc hq
      exact ⟨_, _, ht⟩
    · obtain ⟨fs, t, ht, -⟩ := h.match_open hc hq
      exact ⟨_, _, ht⟩

theorem step {a : LevelCall × List Fill} (hs : s.Step a t) (hroom : HasRoom (s, a, t)) :
    t.Sound ∧ Fifo (s, a, t) := by
  obtain ⟨c, fs⟩ := a
  obtain ⟨hc, hp⟩ := hs
  cases c with
  | addOrder p o =>
    obtain ⟨rfl, rfl⟩ := Prod.mk.inj (Option.some.inj hp)
    have ht := h.add hc.1 hc.2.1 hc.2.2 (hroom p o rfl)
    exact ⟨ht, rfl, ht.toFaithful⟩
  | removeOrder p =>
    obtain ⟨rfl, rfl⟩ := Prod.mk.inj (Option.some.inj hp)
    have ht := h.remove hc
    exact ⟨ht, rfl, ht.toFaithful⟩
  | matchOrder p o =>
    by_cases hq : o.remainingQuantity = 0
    · obtain ⟨t', ht, hsound⟩ := h.match_empty hc hq
      obtain ⟨rfl, rfl⟩ := Prod.mk.inj (Option.some.inj (ht.symm.trans hp))
      refine ⟨hsound, ?_, hsound.toFaithful⟩
      simp only [LevelCall.queued, hq, UInt32.toNat_zero, consume_zero, List.map_nil]
    · obtain ⟨fs', t', ht, hfs, hsound⟩ := h.match_open hc hq
      obtain ⟨rfl, rfl⟩ := Prod.mk.inj (Option.some.inj (ht.symm.trans hp))
      exact ⟨hsound, hfs, hsound.toFaithful⟩

omit h in
theorem room_of_fifo {a : LevelCall × List Fill} (hs : s.Step a t) (hf : Fifo (s, a, t)) :
    HasRoom (s, a, t) := by
  obtain ⟨c, fs⟩ := a
  rintro p o rfl
  obtain ⟨⟨-, ha, hq⟩, hp⟩ := hs
  obtain ⟨rfl, rfl⟩ := Prod.mk.inj (Option.some.inj hp)
  by_contra hfull
  obtain ⟨hlive, hgone⟩ := add_unreachable ha hq hfull
  exact hgone (hf.2.reachable p List.mem_cons_self hlive)

end Sound

end LevelSession

/-- The level is a queue of its live orders throughout a run exactly when no order is added to a ring
with 127 slots in use, by live orders or by cancelled ones that the head has not passed; and then
every further call has a result. -/
theorem level_fifo_iff {price : Int64} {orders : OrderHeap}
    (h : Runs LevelSession.Step (.new price orders) ts s) :
    ((∀ x ∈ ts, LevelSession.Fifo x) ↔ ∀ x ∈ ts, LevelSession.HasRoom x) ∧
    ((∀ x ∈ ts, LevelSession.HasRoom x) →
      ∀ c, s.Allowed c → ∃ fs t, s.perform c = some (fs, t)) := by
  refine ⟨?_, fun hroom c hc => ?_⟩
  · exact h.each_iff (LevelSession.sound_new price orders) (fun _ _ _ hi hr hc => hi.step hr hc)
      fun _ _ _ _ hr hf => LevelSession.Sound.room_of_fifo hr hf
  · exact (h.invariant_of (LevelSession.sound_new price orders)
      (fun _ _ _ hi hr hc => (hi.step hr hc).1) hroom).exists_perform hc

end Steps

def LevelSession.attempt (s : LevelSession) (c : LevelCall) :
    Option ((LevelCall × List Fill) × LevelSession) :=
  if s.Allowed c then (s.perform c).map fun r => ((c, r.1), r.2) else none

theorem LevelSession.step_of_attempt {s t : LevelSession} {c : LevelCall}
    {a : LevelCall × List Fill} (h : s.attempt c = some (a, t)) : s.Step a t := by
  rw [attempt] at h
  split at h
  · rename_i hc
    obtain ⟨r, hr, he⟩ := Option.map_eq_some_iff.1 h
    obtain ⟨rfl, rfl⟩ := Prod.mk.inj he
    exact ⟨hc, hr⟩
  · cases h

theorem LevelSession.exists_run (cs : List LevelCall)
    (ok : List (LevelSession × (LevelCall × List Fill) × LevelSession) → LevelSession → Bool)
    (h : (Runs.play attempt (.new 100 default) cs).any (fun x => ok x.1 x.2) = true) :
    ∃ ts s, Runs Step (.new 100 default) ts s ∧ ok ts s = true :=
  Runs.exists_of_play (fun _ _ _ _ => step_of_attempt) h

def unitOrder : Order := { quantity := 1, remainingQuantity := 1 }

/-- Two orders, the first of them cancelled, and a match. -/
theorem level_fifo_iff_cancelled : ∃ ts s,
    Runs LevelSession.Step (.new 100 default) ts s ∧ ts.length = 4 ∧
      ∀ x ∈ ts, LevelSession.Fifo x := by
  obtain ⟨ts, s, h, hok⟩ := LevelSession.exists_run
    [.addOrder 0 unitOrder, .addOrder 1 unitOrder, .removeOrder 0, .matchOrder 2 unitOrder]
    (fun ts _ => ts.length == 4 && ts.all fun x => decide (x.1.level.used + 1 < maxOrders))
    (by decide +kernel)
  rw [Bool.and_eq_true, beq_iff_eq, List.all_eq_true] at hok
  exact ⟨ts, s, h, hok.1, (level_fifo_iff h).1.2 fun x hx _ _ _ => of_decide_eq_true (hok.2 x hx)⟩

/-- Behind one live order, 127 others are added and cancelled, one after the other. -/
def churn : List LevelCall :=
  .addOrder 0 unitOrder ::
    (List.range 127).flatMap fun i => [.addOrder (i + 1) unitOrder, .removeOrder (i + 1)]

/-- There are never more than two live orders, and the first of them is lost. -/
theorem live_order_lost_behind_cancelled : ∃ ts s,
    Runs LevelSession.Step (.new 100 default) ts s ∧ (∀ x ∈ ts, x.2.2.queue.length ≤ 2) ∧
      ¬ ∀ x ∈ ts, LevelSession.Fifo x := by
  obtain ⟨ts, s, h, hok⟩ := LevelSession.exists_run churn
    (fun ts _ => (ts.all fun x => decide (x.2.2.queue.length ≤ 2)) &&
      ts.any fun x => decide (0 ∈ x.2.2.added) && PriceLevel.isLive x.2.2.orders 0 &&
        decide (0 ∉ x.2.2.level.ring))
    (by decide +kernel)
  rw [Bool.and_eq_true, List.all_eq_true, List.any_eq_true] at hok
  obtain ⟨hfew, x, hx, hlost⟩ := hok
  simp only [Bool.and_eq_true, decide_eq_true_eq] at hlost
  exact ⟨ts, s, h, fun x hx => of_decide_eq_true (hfew x hx), fun hf =>
    hlost.2 ((hf x hx).2.reachable 0 hlost.1.1 hlost.1.2)⟩

end Velox
