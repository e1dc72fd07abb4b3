import Velox.EngineStep

namespace Velox
set_option autoImplicit true

open OrderBook PriceLevel

variable {p q : OrderPtr} {o : Order}

/-- An engine with what it works on, the orders handed to `process_order` so far, and the ids of
those that were rejected or cancelled since. -/
structure EngineSession where
  run : EngineRun
  known : List OrderPtr
  closed : List UInt64

inductive EngineEvent
  | process (p : OrderPtr) (o : Order) (out : Outcome)
  | cancel (id : UInt64) (result : Bool)

def EngineEvent.Carries (key : List UInt8) : EngineEvent → Prop
  | .process _ o _ => o.key = key
  | .cancel .. => True

instance (key : List UInt8) : (e : EngineEvent) → Decidable (e.Carries key)
  | .process _ o _ => inferInstanceAs (Decidable (o.key = key))
  | .cancel .. => isTrue trivial

namespace EngineSession

def start (symbol : List UInt8) (shared : Collaborators) : EngineSession :=
  ⟨⟨MatchingEngine.new symbol, shared, fun _ => default⟩, [], []⟩

def book (s : EngineSession) : Session := ⟨s.run.engine.mOrderBook, s.run.orders, s.known⟩

def call (s : EngineSession) (p : OrderPtr) (o : Order) : EngineRun :=
  { s.run with orders := s.book.write p o }

/-- One call of `process_order` with a fresh order whose id is new, or of `cancel_order` with any
id. -/
inductive Step : EngineSession → EngineEvent → EngineSession → Prop
  | process {s : EngineSession} {p : OrderPtr} {o : Order} {out : Outcome} {t : EngineRun}
      (hp : p ∉ s.known) (hid : ∀ q ∈ s.known, (s.run.orders q).orderId ≠ o.orderId) (ho : o.Fresh)
      (h : (s.call p o).processOrder p = some (out, t)) :
      Step s (.process p o out)
        ⟨t, p :: s.known, if out.accepted then s.closed else o.orderId :: s.closed⟩
  | cancel {s : EngineSession} (id : UInt64) :
      Step s (.cancel id (s.run.cancelOrder id).1)
        ⟨(s.run.cancelOrder id).2, s.known,
          if (s.run.cancelOrder id).1 then id :: s.closed else s.closed⟩

/-- A step that leaves no ring with more than 127 slots in use. -/
def RoomyStep (s : EngineSession) (e : EngineEvent) (t : EngineSession) : Prop :=
  Step s e t ∧ t.book.book.Roomy

variable {s s' : EngineSession} {t : EngineRun} {u : BookRun} {out : Outcome} {e : EngineEvent}

theorem call_self (s : EngineSession) (p : OrderPtr) (o : Order) : (s.call p o).orders p = o :=
  Session.write_self s.book p o

theorem match_call (s : EngineSession) (p : OrderPtr) (o : Order) :
    OrderBook.match (some p) ⟨(s.call p o).engine.mOrderBook,
      Function.update (s.call p o).orders p ((s.call p o).orders p).toLimit, []⟩ =
    OrderBook.match (some p) (s.book.call p o.toLimit) := by
  rw [call_self, Session.call]
  congr 2
  exact Function.update_idem o o.toLimit s.run.orders

theorem accepts_call (h : EngineRun.Accepts p (s.call p o) u out t) :
    ∃ r, OrderBook.match (some p) (s.book.call p o.toLimit) = some (r, u) := by
  obtain ⟨r, hr⟩ := h.called
  exact ⟨r, by rw [← match_call, hr]⟩

theorem refuses_orders (h : EngineRun.Refuses p (s.call p o) out t) :
    t.orders = s.book.write p { o with status := .REJECTED } := by
  rw [h.orders, setStatus, call_self]
  exact Function.update_idem o _ s.run.orders

theorem accepts_fresh (hid : ∀ q ∈ s.known, (s.run.orders q).orderId ≠ o.orderId) :
    ∀ q ∈ s.book.known, (s.book.orders q).orderId ≠ o.toLimit.orderId := by
  intro q hq
  rw [Order.toLimit_static (g := Order.orderId) fun _ _ _ => rfl]
  exact hid q hq

theorem unindexed_of_filled (h : s.book.Kept) (hp : p ∉ s.known) {r : Option OrderPtr}
    (hm : OrderBook.match (some p) (s.book.call p o) = some (r, u)) (hz : units u.orders p = 0)
    {id : UInt64} {loc : OrderLocation} (hi : u.book.mOrderIndex id = some loc) :
    loc.orderPtr ≠ p := by
  have hold : s.book.book.mOrderIndex id = some loc → loc.orderPtr ≠ p := fun hi he =>
    hp (he ▸ (h.indexed id loc hi).1)
  rcases h.match_cases hp hm with ⟨-, rfl, -⟩ | ⟨-, ⟨v, fs, hpr, -⟩, -⟩
  · exact hold hi
  · rcases hpr.index_eq with ⟨-, he⟩ | ⟨hpos, -⟩
    · exact hold (he ▸ hi)
    · rw [hpr.orders] at hz
      omega

section Accepts

variable (ha : EngineRun.Accepts p (s.call p o) u out t)
include ha

theorem accepts_static {g : Order → α} (hg : ∀ o st, g { o with status := st } = g o)
    (q : OrderPtr) : g (t.orders q) = g (u.orders q) := by
  rw [ha.orders]
  exact setStatus_static hg p q _ _

theorem accepts_same (q : OrderPtr) : (t.orders q).orderId = (u.orders q).orderId ∧
    (t.orders q).price = (u.orders q).price ∧ (t.orders q).isBuy = (u.orders q).isBuy ∧
    (t.orders q).remainingQuantity = (u.orders q).remainingQuantity :=
  ⟨accepts_static ha (fun _ _ => rfl) q, accepts_static ha (fun _ _ => rfl) q,
    accepts_static ha (fun _ _ => rfl) q, accepts_static ha (fun _ _ => rfl) q⟩

variable (h : s.book.Kept) (hp : p ∉ s.known) (ho : o.Fresh)
include h hp ho

theorem accepts_active (q : OrderPtr) : (t.orders q).isActive = (u.orders q).isActive ∨
    ((t.orders q).isActive = false ∧ units u.orders q = 0 ∧
      ∀ id loc, u.book.mOrderIndex id = some loc → loc.orderPtr ≠ q) := by
  obtain ⟨r, hm⟩ := accepts_call ha
  by_cases hq : q = p
  · subst hq
    rw [ha.orders, setStatus_self]
    by_cases hz : (u.orders q).remainingQuantity = 0
    · refine .inr ⟨?_, units_eq_zero_iff.2 hz, fun id loc hi =>
        unindexed_of_filled h hp hm (units_eq_zero_iff.2 hz) hi⟩
      rw [Order.settledStatus, if_pos hz]
      rfl
    · left
      have hactive : (u.orders q).isActive = true := by
        rcases h.match_cases hp hm with ⟨-, rfl, -⟩ | ⟨-, ⟨v, fs, hpr, -⟩, -⟩
        · rw [Session.call_self, ho.toLimit.active]
        · rw [hpr.static (g := Order.isActive) (fun _ _ => rfl), Session.call_self,
            ho.toLimit.active]
      rw [hactive, Order.settledStatus, if_neg hz]
      split <;> rfl
  · rw [ha.orders, setStatus_other hq]
    exact .inl rfl

end Accepts

section Fills

variable (ha : EngineRun.Accepts p (s.call p o) u out t) (h : s.book.Kept) (hp : p ∉ s.known)
include ha h hp

theorem accepts_fills : u.orders = replay p (s.book.write p o.toLimit) out.fills ∧
    Fair p (s.book.write p o.toLimit) out.fills ∧
    ∀ f ∈ out.fills, f.order ∈ s.known ∧ (s.run.orders f.order).isBuy = !o.isBuy := by
  obtain ⟨r, hm⟩ := accepts_call ha
  have hfills := h.match_fills hp hm
  rw [Order.toLimit_static (g := Order.isBuy) fun _ _ _ => rfl] at hfills
  rw [ha.outcome]
  exact hfills

theorem accepts_taken : (Greedy.consume (within s.run.orders o.isBuy o.toLimit.price)
    o.remainingQuantity.toNat (s.book.book.sideQueue s.run.orders (!o.isBuy))).taken =
      out.fills.map Fill.pair := by
  obtain ⟨r, hm⟩ := accepts_call ha
  have htaken := h.match_taken hp hm
  rw [Order.toLimit_static (g := Order.isBuy) fun _ _ _ => rfl,
    Order.toLimit_static (g := Order.remainingQuantity) fun _ _ _ => rfl] at htaken
  rw [ha.outcome]
  exact htaken

theorem accepts_units (hq : q ∈ s.known) :
    units t.orders q + drawnOn q out.fills = units s.run.orders q := by
  have hne : q ≠ p := fun he => hp (he ▸ hq)
  obtain ⟨horders, hfair, -⟩ := accepts_fills ha h hp
  have hunits := hfair.units_maker hne
  rw [← horders, units, units, Session.write_known hp _ hq] at hunits
  rw [units, accepts_static ha (g := Order.remainingQuantity) fun _ _ => rfl]
  exact hunits

variable {g : Order → α} (hg : ∀ o x, g (o.trade x) = g o)
include hg

theorem accepts_matched (q : OrderPtr) : g (u.orders q) = g (s.book.write p o.toLimit q) := by
  rw [(accepts_fills ha h hp).1]
  exact replay_static hg p _ out.fills q

theorem accepts_known (hq : q ∈ s.known) : g (t.orders q) = g (s.run.orders q) := by
  have hne : q ≠ p := fun he => hp (he ▸ hq)
  rw [ha.orders, setStatus_other hne, accepts_matched ha h hp hg, Session.write_known hp _ hq]
  rfl

variable (hs : ∀ o st, g { o with status := st } = g o)
include hs

theorem accepts_self : g (t.orders p) = g o.toLimit := by
  rw [accepts_static ha hs, accepts_matched ha h hp hg, Session.write_self]

end Fills

theorem kept_start (symbol : List UInt8) (shared : Collaborators) : (start symbol shared).book.Kept :=
  Session.kept_start symbol

theorem intact_start (symbol : List UInt8) (shared : Collaborators) :
    (start symbol shared).book.Intact :=
  Session.intact_start symbol

/-- Processing a fresh order keeps the engine's book in order, whatever its id. -/
theorem process_kept (h : s.book.Kept) (hp : p ∉ s.known) (ho : o.Fresh)
    (hc : (s.call p o).processOrder p = some (out, t)) :
    t.engine.mOrderBook.Kept t.orders (p :: s.known) := by
  rcases EngineRun.processOrder_cases hc with ⟨-, hr⟩ | ⟨-, u, ha⟩
  · have hk := (h.write hp { o with status := .REJECTED }).mono p
    rw [← refuses_orders hr] at hk
    rw [hr.book]
    exact hk
  · obtain ⟨r, hm⟩ := accepts_call ha
    rw [ha.book]
    exact OrderBook.Kept.relabel (fun q _ => accepts_same ha q)
      (fun q _ => accepts_active ha h hp ho q) (h.matched hp ho.toLimit hm)

theorem process_other (h : s.book.Kept) (hp : p ∉ s.known)
    (hc : (s.call p o).processOrder p = some (out, t)) (hq : q ≠ p) (hk : q ∉ s.known) :
    t.orders q = s.run.orders q := by
  rcases EngineRun.processOrder_cases hc with ⟨-, hr⟩ | ⟨-, u, ha⟩
  · rw [refuses_orders hr, Session.write_other _ hq]
    rfl
  · obtain ⟨horders, -, hmakers⟩ := accepts_fills ha h hp
    rw [ha.orders, setStatus_other hq, horders,
      replay_other hq fun f hf he => hk (he ▸ (hmakers f hf).1), Session.write_other _ hq]
    rfl

theorem process_queue (hc : (s.call p o).processOrder p = some (out, t)) :
    t.engine.mIncomingOrders = s.run.engine.mIncomingOrders := by
  rcases EngineRun.processOrder_cases hc with ⟨-, hr⟩ | ⟨-, u, ha⟩
  · exact hr.queue
  · exact ha.queue

theorem Step.kept (hs : Step s e s') (h : s.book.Kept) : s'.book.Kept := by
  cases hs with
  | process hp hid ho hc => exact process_kept h hp ho hc
  | cancel id => exact OrderBook.Kept.cancel h id

theorem RoomyStep.intact (hs : RoomyStep s e s') (h : s.book.Intact) : s'.book.Intact := by
  obtain ⟨hs, hroom⟩ := hs
  cases hs with
  | @process p o out t hp hid ho hc =>
    rcases EngineRun.processOrder_cases hc with ⟨-, hr⟩ | ⟨-, u, ha⟩
    · have hk := (h.write hp { o with status := .REJECTED }).mono (p := p) ?_
      · rw [← refuses_orders hr] at hk
        change OrderBook.Intact t.engine.mOrderBook t.orders _
        rw [hr.book]
        exact hk
      · rw [isLive, Session.write_self]
        rfl
    · obtain ⟨r, hm⟩ := accepts_call ha
      have hroom' : u.book.Roomy := ha.book ▸ hroom
      have hk := Session.RoomyStep.intact
        ⟨Session.Step.match hp (accepts_fresh hid) ho.toLimit hm, hroom'⟩ h
      have hk' := OrderBook.Intact.relabel (fun q _ => accepts_same ha q)
        (fun q _ => accepts_active ha h.kept hp ho q) hk
      change OrderBook.Intact t.engine.mOrderBook t.orders _
      rw [ha.book]
      exact hk'
  | cancel id => exact OrderBook.Intact.cancel h id

theorem kept_of_runs {symbol : List UInt8} {shared : Collaborators}
    (h : Runs Step (start symbol shared) ts s) : s.book.Kept :=
  h.invariant (I := fun s => s.book.Kept) (kept_start symbol shared) fun _ _ _ hk hs => Step.kept hs hk

theorem intact_of_runs {symbol : List UInt8} {shared : Collaborators}
    (h : Runs RoomyStep (start symbol shared) ts s) : s.book.Intact :=
  h.invariant (I := fun s => s.book.Intact) (intact_start symbol shared) fun _ _ _ hi hs =>
    RoomyStep.intact hs hi

inductive Call
  | process (p : OrderPtr) (o : Order)
  | cancel (id : UInt64)

def perform (s : EngineSession) : Call → Option (EngineEvent × EngineSession)
  | .process p o =>
    if p ∉ s.known ∧ (∀ q ∈ s.known, (s.run.orders q).orderId ≠ o.orderId) ∧ o.Fresh then
      ((s.call p o).processOrder p).map fun r => (.process p o r.1,
        ⟨r.2, p :: s.known, if r.1.accepted then s.closed else o.orderId :: s.closed⟩)
    else none
  | .cancel id => some (.cancel id (s.run.cancelOrder id).1,
      ⟨(s.run.cancelOrder id).2, s.known,
        if (s.run.cancelOrder id).1 then id :: s.closed else s.closed⟩)

theorem perform_step {c : Call} (h : s.perform c = some (e, s')) : Step s e s' := by
  cases c with
  | process p o =>
    simp only [perform] at h
    split at h
    · rename_i hok
      obtain ⟨hp, hid, ho⟩ := hok
      rw [Option.map_eq_some_iff] at h
      obtain ⟨⟨out, t⟩, hm, he⟩ := h
      obtain ⟨rfl, rfl⟩ := Prod.mk.inj he
      exact .process hp hid ho hm
    · cases h
  | cancel id =>
    obtain ⟨rfl, rfl⟩ := Prod.mk.inj (Option.some.inj h)
    exact .cancel id

theorem exists_run (symbol : List UInt8) (shared : Collaborators) (cs : List Call)
    (ok : List (EngineSession × EngineEvent × EngineSession) → EngineSession → Bool)
    (h : (Runs.play perform (start symbol shared) cs).any (fun x => ok x.1 x.2) = true) :
    ∃ ts s, Runs Step (start symbol shared) ts s ∧ ok ts s = true :=
  Runs.exists_of_play (fun _ _ _ _ => perform_step) h

theorem exists_roomy_run (symbol : List UInt8) (shared : Collaborators) (cs : List Call)
    (ok : List (EngineSession × EngineEvent × EngineSession) → EngineSession → Bool)
    (h : (Runs.play perform (start symbol shared) cs).any
      (fun x => x.1.all (fun y => y.2.2.book.book.Roomy) && ok x.1 x.2) = true) :
    ∃ ts s, Runs RoomyStep (start symbol shared) ts s ∧ ok ts s = true := by
  obtain ⟨ts, s, hr, hok⟩ := exists_run symbol shared cs
    (fun ts s => ts.all (fun y => y.2.2.book.book.Roomy) && ok ts s) h
  rw [Bool.and_eq_true, List.all_eq_true] at hok
  have hroomy := hr.restrict (C := fun _ _ t => t.book.book.Roomy)
    fun x hx => of_decide_eq_true (hok.1 x hx)
  exact ⟨ts, s, hroomy, hok.2⟩

end EngineSession

end Velox
