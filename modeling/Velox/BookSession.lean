import Velox.CancelPreservation
import Velox.Lib.Runs

namespace Velox
set_option autoImplicit true

open OrderBook PriceLevel

/-- An order as its owner submits it. -/
structure Order.Fresh (o : Order) : Prop where
  status : o.status = .NEW
  filled : o.filledQuantity = 0
  remaining : o.remainingQuantity = o.quantity

theorem Order.Fresh.active {o : Order} (h : o.Fresh) : o.isActive = true := by
  rw [isActive, h.status]
  rfl

def Order.limit (id : UInt64) (side : OrderSide) (price : Int64) (quantity : UInt32) : Order :=
  { orderId := id, side, price, quantity, remainingQuantity := quantity }

theorem Order.fresh_limit (id : UInt64) (side : OrderSide) (price : Int64) (quantity : UInt32) :
    (limit id side price quantity).Fresh := ⟨rfl, rfl, rfl⟩

/-- A book, the orders in memory, and the orders handed to `match` so far. -/
structure Session where
  book : OrderBook
  orders : OrderHeap
  known : List OrderPtr

/-- A call with its outcome: the fills and the order that `match` appends and returns, or the answer
of `cancel_order`. -/
inductive BookEvent
  | match (p : OrderPtr) (o : Order) (fills : List Fill) (result : Option OrderPtr)
  | cancel (id : UInt64) (result : Bool)

namespace Session

def start (symbol : List UInt8) : Session := ⟨OrderBook.new symbol, fun _ => default, []⟩

def write (s : Session) (p : OrderPtr) (o : Order) : OrderHeap := Function.update s.orders p o

/-- The orders in memory when `match` is called with a new one. -/
def call (s : Session) (p : OrderPtr) (o : Order) : BookRun := ⟨s.book, s.write p o, []⟩

/-- One call of `match` with a fresh order whose id is new, or of `cancel_order` with any id. -/
inductive Step : Session → BookEvent → Session → Prop
  | match {s : Session} {t : BookRun} {r : Option OrderPtr} (hp : p ∉ s.known)
      (hid : ∀ q ∈ s.known, (s.orders q).orderId ≠ o.orderId) (ho : o.Fresh)
      (h : OrderBook.match (some p) (s.call p o) = some (r, t)) :
      Step s (.match p o t.fills r) ⟨t.book, t.orders, p :: s.known⟩
  | cancel {s : Session} (id : UInt64) :
      Step s (.cancel id (s.book.cancelOrder id s.orders).1)
        ⟨(s.book.cancelOrder id s.orders).2.1, (s.book.cancelOrder id s.orders).2.2, s.known⟩

/-- A step that leaves no ring with more than 127 slots in use. -/
def RoomyStep (s : Session) (e : BookEvent) (t : Session) : Prop := Step s e t ∧ t.book.Roomy

def Kept (s : Session) : Prop := s.book.Kept s.orders s.known

def Intact (s : Session) : Prop := s.book.Intact s.orders s.known

variable {s t : Session} {p : OrderPtr} {o : Order} {e : BookEvent}

theorem Intact.kept (h : s.Intact) : s.Kept := h.toKept

theorem write_self (s : Session) (p : OrderPtr) (o : Order) : s.write p o p = o := by
  rw [write, Function.update_self]

theorem call_self (s : Session) (p : OrderPtr) (o : Order) : (s.call p o).orders p = o :=
  write_self s p o

theorem write_other (o : Order) {q : OrderPtr} (h : q ≠ p) : s.write p o q = s.orders q := by
  rw [write, Function.update_of_ne h]

section Write

variable (hp : p ∉ s.known) (o : Order)
include hp

theorem write_known {q : OrderPtr} (hq : q ∈ s.known) : s.write p o q = s.orders q :=
  write_other o fun he => hp (he ▸ hq)

theorem Kept.write (h : s.Kept) : s.book.Kept (s.write p o) s.known :=
  OrderBook.Kept.relabel (fun q hq => by rw [write_known hp o hq]; exact ⟨rfl, rfl, rfl, rfl⟩)
    (fun q hq => by rw [write_known hp o hq]; exact .inl rfl) h

theorem Intact.write (h : s.Intact) : s.book.Intact (s.write p o) s.known :=
  OrderBook.Intact.relabel (fun q hq => by rw [write_known hp o hq]; exact ⟨rfl, rfl, rfl, rfl⟩)
    (fun q hq => by rw [write_known hp o hq]; exact .inl rfl) h

theorem Kept.write_queue (h : s.Kept) (side : Bool) :
    s.book.sideQueue (s.write p o) side = s.book.sideQueue s.orders side :=
  OrderBook.Kept.relabel_queue (fun q hq => by rw [write_known hp o hq]; exact ⟨rfl, rfl, rfl, rfl⟩)
    (fun q hq => by rw [write_known hp o hq]; exact .inl rfl) h side

end Write

/-- What a call of `match` does: nothing to an order without quantity; otherwise see `Processed`. -/
theorem Kept.match_cases (h : s.Kept) (hp : p ∉ s.known) {u : BookRun} {r : Option OrderPtr}
    (hm : OrderBook.match (some p) (s.call p o) = some (r, u)) :
    (o.remainingQuantity = 0 ∧ u = s.call p o ∧ r = some p) ∨
    (0 < o.remainingQuantity.toNat ∧
      (∃ v fs, Processed p o.isBuy (s.call p o) v u fs ∧ u.fills = fs) ∧
      r = if (u.orders p).remainingQuantity > 0 then some p else none) := by
  have hself : (s.call p o).orders p = o := call_self s p o
  rcases Nat.eq_zero_or_pos (units (s.call p o).orders p) with hz | hq
  · left
    rw [match_nothing hz, Option.some.injEq, Prod.mk.injEq] at hm
    rw [units_eq_zero_iff, hself] at hz
    exact ⟨hz, hm.2.symm, hm.1.symm⟩
  · right
    obtain ⟨v, fs, hpr, hr⟩ := match_spec (h.write hp o).ladder (h.unringed hp) hq hm
    rw [hself] at hpr
    rw [units, hself] at hq
    exact ⟨hq, ⟨v, fs, hpr, by rw [hpr.fills, hpr.crossed.fills]; rfl⟩, hr⟩

theorem Kept.match_fills (h : s.Kept) (hp : p ∉ s.known) {u : BookRun} {r : Option OrderPtr}
    (hm : OrderBook.match (some p) (s.call p o) = some (r, u)) :
    u.orders = replay p (s.write p o) u.fills ∧ Fair p (s.write p o) u.fills ∧
    ∀ f ∈ u.fills, f.order ∈ s.known ∧ (s.orders f.order).isBuy = !o.isBuy := by
  rcases h.match_cases hp hm with ⟨-, rfl, -⟩ | ⟨-, ⟨v, fs, hpr, rfl⟩, -⟩
  · exact ⟨rfl, trivial, fun f hf => by cases hf⟩
  · refine ⟨hpr.orders.trans hpr.crossed.orders, hpr.crossed.fair, fun f hf => ?_⟩
    obtain ⟨l, hl, hring, -⟩ := hpr.crossed.makers f hf
    have hk := h.ringed _ l hl _ hring
    refine ⟨hk, ?_⟩
    rw [← write_known hp o hk]
    exact ((h.write hp o).ladder.resting _ l hl _ hring).1

theorem Kept.match_taken (h : s.Kept) (hp : p ∉ s.known) {u : BookRun} {r : Option OrderPtr}
    (hm : OrderBook.match (some p) (s.call p o) = some (r, u)) :
    (Greedy.consume (within s.orders o.isBuy o.price) o.remainingQuantity.toNat
      (s.book.sideQueue s.orders (!o.isBuy))).taken = u.fills.map Fill.pair := by
  rcases h.match_cases hp hm with ⟨hz, rfl, -⟩ | ⟨-, ⟨v, fs, hpr, rfl⟩, -⟩
  · rw [hz]
    exact congrArg Greedy.Outcome.taken Greedy.consume_zero
  · have hdrawn := hpr.drawn
    rw [call_self, units, call_self] at hdrawn
    change Greedy.consume (within (s.write p o) _ _) _ (s.book.sideQueue (s.write p o) _) = _ at hdrawn
    rw [h.write_queue hp] at hdrawn
    rw [Greedy.consume_congr fun x hx => ?_, hdrawn]
    obtain ⟨l, hl, hx⟩ := mem_sideQueue.1 hx
    rw [within, within, write_known hp o (h.ringed _ l hl _ (mem_liveQueue.1 hx).1)]

end Session

theorem OrderBook.Kept.mono {b : OrderBook} {orders : OrderHeap} {known : List OrderPtr}
    (h : b.Kept orders known) (p : OrderPtr) : b.Kept orders (p :: known) :=
  { h with
    ringed := fun s l hl q hq => List.mem_cons_of_mem p (h.ringed s l hl q hq)
    indexed := fun id loc hi => (h.indexed id loc hi).imp_left (List.mem_cons_of_mem p) }

theorem OrderBook.Intact.mono {b : OrderBook} {orders : OrderHeap} {known : List OrderPtr}
    {p : OrderPtr} (h : b.Intact orders known) (hp : isLive orders p = false) :
    b.Intact orders (p :: known) :=
  { h with
    toKept := h.toKept.mono p
    queued := fun q hq hlive => by
      rcases List.mem_cons.1 hq with rfl | hq
      · rw [hp] at hlive
        cases hlive
      · exact h.queued q hq hlive }

namespace Session

variable {s t : Session} {p : OrderPtr} {o : Order} {e : BookEvent}

theorem kept_start (symbol : List UInt8) : (start symbol).Kept :=
  (intact_new _ _).toKept

theorem intact_start (symbol : List UInt8) : (start symbol).Intact :=
  intact_new _ _

theorem Kept.matched (h : s.Kept) (hp : p ∉ s.known) (ho : o.Fresh) {u : BookRun}
    {r : Option OrderPtr} (hm : OrderBook.match (some p) (s.call p o) = some (r, u)) :
    u.book.Kept u.orders (p :: s.known) := by
  have hself : (s.call p o).orders p = o := call_self s p o
  rcases h.match_cases hp hm with ⟨-, rfl, -⟩ | ⟨-, ⟨v, fs, hpr, -⟩, -⟩
  · exact (h.write hp o).mono p
  · exact hpr.kept (h.write hp o) hp (by rw [hself]) (by rw [hself, ho.active])

theorem Step.kept (hs : Step s e t) (h : s.Kept) : t.Kept := by
  cases hs with
  | «match» hp hid ho hm => exact h.matched hp ho hm
  | cancel id => exact OrderBook.Kept.cancel h id

theorem RoomyStep.intact (hs : RoomyStep s e t) (h : s.Intact) : t.Intact := by
  obtain ⟨hs, hroom⟩ := hs
  cases hs with
  | @«match» p o _ u r hp hid ho hm =>
    have hself : (s.call p o).orders p = o := call_self s p o
    rcases h.kept.match_cases hp hm with ⟨hz, rfl, -⟩ | ⟨-, ⟨v, fs, hpr, -⟩, -⟩
    · refine (h.write hp o).mono ?_
      rw [← Bool.not_eq_true, isLive_iff, units, write_self, hz]
      exact fun hlt => lt_irrefl 0 hlt.2
    · refine hpr.intact (h.write hp o) hp (by rw [hself]) (by rw [hself, ho.active]) ?_ hroom
      intro q hq
      rw [hself]
      change (s.write p o q).orderId ≠ o.orderId
      rw [write_known hp o hq]
      exact hid q hq
  | cancel id => exact OrderBook.Intact.cancel h id

theorem kept_of_runs {symbol : List UInt8} (h : Runs Step (start symbol) ts s) : s.Kept :=
  h.invariant (kept_start symbol) fun _ _ _ hk hs => hs.kept hk

theorem intact_of_runs {symbol : List UInt8} (h : Runs RoomyStep (start symbol) ts s) : s.Intact :=
  h.invariant (intact_start symbol) fun _ _ _ hi hs => hs.intact hi

/-- A ring that has not wrapped never holds the loop of `match` up. -/
theorem Intact.drainable (h : s.Intact) (p : OrderPtr) (o : Order) (side : Bool) :
    Drainable p side (s.call p o) := by
  intro pre l post hls _ hlost
  exact absurd (h.counted _ l (hls ▸ List.mem_append_right _ List.mem_cons_self)) hlost

theorem Intact.match_returns (h : s.Intact) (hp : p ∉ s.known) (o : Order) :
    ∃ r u, OrderBook.match (some p) (s.call p o) = some (r, u) :=
  match_total (h.write hp o).ladder (h.kept.unringed hp) (h.drainable p o _)

/-- A request to the book, made by a caller who keeps the rules or is refused. -/
inductive Call
  | match (p : OrderPtr) (o : Order)
  | cancel (id : UInt64)

instance (o : Order) : Decidable o.Fresh :=
  decidable_of_iff (o.status = .NEW ∧ o.filledQuantity = 0 ∧ o.remainingQuantity = o.quantity)
    ⟨fun h => ⟨h.1, h.2.1, h.2.2⟩, fun h => ⟨h.status, h.filled, h.remaining⟩⟩

instance (b : OrderBook) : Decidable b.Roomy :=
  inferInstanceAs (Decidable (∀ s, ∀ l ∈ b.levels s, (b.level l).occupied < maxOrders))

/-- Steps and runs can be computed. -/
def perform (s : Session) : Call → Option (BookEvent × Session)
  | .match p o =>
    if p ∉ s.known ∧ (∀ q ∈ s.known, (s.orders q).orderId ≠ o.orderId) ∧ o.Fresh then
      (OrderBook.match (some p) (s.call p o)).map fun r =>
        (.match p o r.2.fills r.1, ⟨r.2.book, r.2.orders, p :: s.known⟩)
    else none
  | .cancel id => some (.cancel id (s.book.cancelOrder id s.orders).1,
      ⟨(s.book.cancelOrder id s.orders).2.1, (s.book.cancelOrder id s.orders).2.2, s.known⟩)

theorem perform_step {c : Call} (h : s.perform c = some (e, t)) : Step s e t := by
  cases c with
  | «match» p o =>
    simp only [perform] at h
    split at h
    · rename_i hok
      obtain ⟨hp, hid, ho⟩ := hok
      rw [Option.map_eq_some_iff] at h
      obtain ⟨⟨r, u⟩, hm, he⟩ := h
      obtain ⟨rfl, rfl⟩ := Prod.mk.inj he
      exact .match hp hid ho hm
    · cases h
  | cancel id =>
    obtain ⟨rfl, rfl⟩ := Prod.mk.inj (Option.some.inj h)
    exact .cancel id

theorem exists_run (symbol : List UInt8) (cs : List Call)
    (ok : List (Session × BookEvent × Session) → Session → Bool)
    (h : (Runs.play perform (start symbol) cs).any (fun x => ok x.1 x.2) = true) :
    ∃ ts s, Runs Step (start symbol) ts s ∧ ok ts s = true :=
  Runs.exists_of_play (fun _ _ _ _ he => perform_step he) h

theorem exists_roomy_run (symbol : List UInt8) (cs : List Call)
    (ok : List (Session × BookEvent × Session) → Session → Bool)
    (h : (Runs.play perform (start symbol) cs).any
      (fun x => x.1.all (fun y => y.2.2.book.Roomy) && ok x.1 x.2) = true) :
    ∃ ts s, Runs RoomyStep (start symbol) ts s ∧ ok ts s = true := by
  obtain ⟨ts, s, hr, hok⟩ := exists_run symbol cs
    (fun ts s => ts.all (fun y => y.2.2.book.Roomy) && ok ts s) h
  rw [Bool.and_eq_true, List.all_eq_true] at hok
  have hroomy := hr.restrict (C := fun _ _ t => t.book.Roomy)
    fun x hx => of_decide_eq_true (hok.1 x hx)
  exact ⟨ts, s, hroomy, hok.2⟩

end Session

end Velox
