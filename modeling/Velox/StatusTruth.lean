import Velox.Conservation

namespace Velox
set_option autoImplicit true

open Greedy OrderBook PriceLevel

variable {p q : OrderPtr} {o : Order} {orders : OrderHeap}

/-- The status says how far the order is filled, as `Order::fill` keeps it. -/
def Order.Truthful (o : Order) : Prop :=
  (o.status = .FILLED ↔ o.remainingQuantity = 0) ∧
  (o.status = .PARTIAL ↔ 0 < o.filledQuantity ∧ 0 < o.remainingQuantity) ∧
  (o.status = .NEW ↔ o.filledQuantity = 0)

instance (o : Order) : Decidable o.Truthful := inferInstanceAs (Decidable (_ ∧ _ ∧ _))

theorem Order.truthful_settled (hw : o.Whole) (hpos : 0 < o.quantity) :
    Order.Truthful { o with status := o.settledStatus } := by
  rw [UInt32.lt_iff_toNat_lt] at hpos
  rw [Order.Whole] at hw
  by_cases hr : o.remainingQuantity = 0
  · have hz : o.remainingQuantity.toNat = 0 := by rw [hr]; rfl
    have hf : o.filledQuantity ≠ 0 := fun hf => by
      rw [hf] at hw
      change 0 + _ = _ at hw
      change 0 < _ at hpos
      omega
    simp [Order.Truthful, Order.settledStatus, hr, hf]
  · by_cases hf : o.filledQuantity = 0
    · simp [Order.Truthful, Order.settledStatus, hr, hf]
    · have hf' := UInt32.pos_iff_ne_zero.2 hf
      have hr' := UInt32.pos_iff_ne_zero.2 hr
      simp [Order.Truthful, Order.settledStatus, hr, hf, hf', hr']

/-- An order that keeps its status while it fills further stays truthful exactly when it was partly
filled before and is not filled up. -/
theorem Order.truthful_trade {o' : Order} (ht : o.Truthful) (hactive : o.isActive = true)
    (hs : o'.status = o.status) (hf : 0 < o'.filledQuantity) :
    o'.Truthful ↔ 0 < o.filledQuantity ∧ 0 < o'.remainingQuantity := by
  have hne := (UInt32.pos_iff_ne_zero.1 hf)
  obtain ⟨hfilled, hpartial, hnew⟩ := ht
  rw [Order.Truthful, hs]
  rw [Order.isActive, Bool.or_eq_true, beq_iff_eq, beq_iff_eq] at hactive
  rcases hactive with hst | hst
  · have hz := hnew.1 hst
    simp [hst, hz, hne]
  · obtain ⟨hpos, -⟩ := hpartial.1 hst
    simp [hst, hpos, hf, hne, UInt32.pos_iff_ne_zero]

namespace EngineSession

variable {s s' : EngineSession} {t : EngineRun} {u : BookRun} {out : Outcome} {e : EngineEvent}

/-- Every order that was neither rejected nor cancelled has a truthful status. -/
def Truthful (s : EngineSession) : Prop :=
  ∀ q ∈ s.known, (s.run.orders q).orderId ∉ s.closed → (s.run.orders q).Truthful

/-- The order that trades first with an incoming one: the oldest live order at the best price of the
other side. -/
def front (s : EngineSession) (side : Bool) : Option OrderPtr :=
  ((s.book.book.sideQueue s.run.orders side).head?).map Prod.fst

/-- The order is refused, or has a quantity and trades with no order, or only with one that has
been partly filled before and keeps a rest. -/
def FillsPartial (s : EngineSession) : EngineEvent → Prop
  | .process _ o _ => s.run.shared.checkRisk o = true → 0 < o.quantity ∧
      ∀ q ∈ s.front (!o.isBuy), ahead o.isBuy (s.run.orders q).price o.toLimit.price = false →
        0 < (s.run.orders q).filledQuantity ∧ o.quantity < (s.run.orders q).remainingQuantity
  | .cancel .. => True

/-- What every step keeps besides: ids tell orders apart, and those of closed orders are known. -/
structure Marked (s : EngineSession) : Prop where
  intact : s.book.Intact
  whole : ∀ q ∈ s.known, (s.run.orders q).Whole
  ids : ∀ q ∈ s.known, ∀ r ∈ s.known,
    (s.run.orders q).orderId = (s.run.orders r).orderId → q = r
  closed : ∀ id ∈ s.closed, ∃ q ∈ s.known, (s.run.orders q).orderId = id
  shut : ∀ q ∈ s.known, (s.run.orders q).orderId ∈ s.closed → (s.run.orders q).isActive = false

theorem cancel_cases (h : s.book.Kept) (id : UInt64) :
    ((s.run.cancelOrder id).1 = false ∧ (s.run.cancelOrder id).2.orders = s.run.orders) ∨
    ((s.run.cancelOrder id).1 = true ∧ ∃ q ∈ s.known, (s.run.orders q).orderId = id ∧
      (s.run.cancelOrder id).2.orders = cancelIn s.run.orders q) := by
  have hcases := h.stocked.cancel_cases id
  rcases hcases with ⟨-, he⟩ | ⟨loc, -, -, he⟩ | ⟨loc, l, side, lvl, hi, -, -, -, he⟩
  · exact .inl ⟨congrArg Prod.fst he, congrArg (fun r => r.2.2) he⟩
  · exact .inl ⟨congrArg Prod.fst he, congrArg (fun r => r.2.2) he⟩
  · obtain ⟨hk, hid, -⟩ := h.indexed id loc hi
    exact .inr ⟨congrArg Prod.fst he, loc.orderPtr, hk, hid, congrArg (fun r => r.2.2) he⟩

section Process

variable (h : s.book.Kept) (hp : p ∉ s.known) (hc : (s.call p o).processOrder p = some (out, t))
include h hp hc

theorem process_id (q : OrderPtr) : (t.orders q).orderId = (s.book.write p o q).orderId := by
  have hlimit : ∀ o', o'.orderId = o.orderId →
      (s.book.write p o' q).orderId = (s.book.write p o q).orderId := fun o' he => by
    by_cases hq : q = p
    · rw [hq, Session.write_self, Session.write_self, he]
    · rw [Session.write_other _ hq, Session.write_other _ hq]
  rcases EngineRun.processOrder_cases hc with ⟨-, hr⟩ | ⟨-, u, ha⟩
  · rw [refuses_orders hr]
    exact hlimit _ rfl
  · rw [accepts_static ha (g := Order.orderId) (fun _ _ => rfl),
      accepts_matched ha h hp (g := Order.orderId) fun _ _ => rfl]
    exact hlimit _ (Order.toLimit_static (g := Order.orderId) (fun _ _ _ => rfl) o)

theorem process_id_known (hq : q ∈ s.known) :
    (t.orders q).orderId = (s.run.orders q).orderId := by
  rw [process_id h hp hc, Session.write_known hp o hq]
  rfl

theorem process_id_self : (t.orders p).orderId = o.orderId := by
  rw [process_id h hp hc, Session.write_self]

theorem process_whole (ho : o.Fresh) (hw : ∀ q ∈ s.known, (s.run.orders q).Whole)
    (hq : q ∈ p :: s.known) : (t.orders q).Whole := by
  rcases EngineRun.processOrder_cases hc with ⟨-, hr⟩ | ⟨-, u, ha⟩
  · rw [refuses_orders hr]
    rcases List.mem_cons.1 hq with rfl | hq
    · rw [Session.write_self]
      exact ho.whole
    · rw [Session.write_known hp _ hq]
      exact hw q hq
  · exact accepts_whole ha h hp ho hw hq

theorem process_active (hq : q ∈ s.known) :
    (t.orders q).isActive = (s.run.orders q).isActive := by
  rcases EngineRun.processOrder_cases hc with ⟨-, hr⟩ | ⟨-, u, ha⟩
  · rw [refuses_orders hr, Session.write_known hp _ hq]
    rfl
  · exact accepts_known ha h hp (g := Order.isActive) (fun _ _ => rfl) hq

end Process

theorem marked_start (symbol : List UInt8) (shared : Collaborators) :
    (start symbol shared).Marked where
  intact := intact_start symbol shared
  whole := fun q hq => by cases hq
  ids := fun q hq => by cases hq
  closed := fun id hid => by cases hid
  shut := fun q hq => by cases hq

theorem RoomyStep.marked (hs : RoomyStep s e s') (h : s.Marked) : s'.Marked := by
  have hi := hs.intact h.intact
  obtain ⟨hs, -⟩ := hs
  cases hs with
  | @process p o out t hp hid ho hc =>
    have hknown := fun {q} (hq : q ∈ s.known) => process_id_known h.intact.kept hp hc hq
    have hself := process_id_self h.intact.kept hp hc
    have hclosed : o.orderId ∉ s.closed := fun hmem => by
      obtain ⟨q, hq, he⟩ := h.closed _ hmem
      exact hid q hq he
    refine ⟨hi, fun q hq => process_whole h.intact.kept hp hc ho h.whole hq, ?_, ?_, ?_⟩
    · intro q hq r hr he
      change (t.orders q).orderId = (t.orders r).orderId at he
      rcases List.mem_cons.1 hq with hqp | hqk <;> rcases List.mem_cons.1 hr with hrp | hrk
      · rw [hqp, hrp]
      · rw [hqp, hself, hknown hrk] at he
        exact absurd he.symm (hid r hrk)
      · rw [hrp, hself, hknown hqk] at he
        exact absurd he (hid q hqk)
      · rw [hknown hqk, hknown hrk] at he
        exact h.ids q hqk r hrk he
    · intro id hmem
      have hold : id ∈ s.closed → ∃ q ∈ p :: s.known, (t.orders q).orderId = id := fun hmem => by
        obtain ⟨q, hq, he⟩ := h.closed id hmem
        exact ⟨q, List.mem_cons_of_mem p hq, (hknown hq).trans he⟩
      change id ∈ if out.accepted then s.closed else o.orderId :: s.closed at hmem
      split at hmem
      · exact hold hmem
      · rcases List.mem_cons.1 hmem with rfl | hmem
        · exact ⟨p, List.mem_cons_self, hself⟩
        · exact hold hmem
    · intro q hq hmem
      change (t.orders q).orderId ∈ if out.accepted then s.closed else o.orderId :: s.closed at hmem
      change (t.orders q).isActive = false
      rcases List.mem_cons.1 hq with rfl | hq
      · rw [hself] at hmem
        rcases EngineRun.processOrder_cases hc with ⟨-, hr⟩ | ⟨-, u, ha⟩
        · rw [refuses_orders hr, Session.write_self]
          rfl
        · rw [ha.outcome] at hmem
          exact absurd hmem hclosed
      · rw [process_active h.intact.kept hp hc hq]
        rw [hknown hq] at hmem
        apply h.shut q hq
        split at hmem
        · exact hmem
        · exact (List.mem_cons.1 hmem).resolve_left (hid q hq)
  | cancel id =>
    have hstatic := fun q => cancel_static h.intact.kept id (g := Order.orderId) (fun _ => rfl) q
    refine ⟨hi, fun q hq => ?_, fun q hq r hr he => ?_, fun i hmem => ?_, fun q hq hmem => ?_⟩
    · exact (cancel_static h.intact.kept id (g := Order.Whole) (fun _ => rfl) q).mpr (h.whole q hq)
    · change ((s.run.cancelOrder id).2.orders q).orderId = _ at he
      rw [hstatic, hstatic] at he
      exact h.ids q hq r hr he
    · have hold : i ∈ s.closed → ∃ q ∈ s.known,
          ((s.run.cancelOrder id).2.orders q).orderId = i := fun hmem => by
        obtain ⟨q, hq, he⟩ := h.closed i hmem
        exact ⟨q, hq, (hstatic q).trans he⟩
      rcases cancel_cases h.intact.kept id with ⟨hr, -⟩ | ⟨hr, q, hq, he, -⟩
      · rw [hr] at hmem
        exact hold hmem
      · rw [hr] at hmem
        rcases List.mem_cons.1 hmem with rfl | hmem
        · exact ⟨q, hq, (hstatic q).trans he⟩
        · exact hold hmem
    · change ((s.run.cancelOrder id).2.orders q).isActive = false
      change ((s.run.cancelOrder id).2.orders q).orderId ∈ _ at hmem
      rw [hstatic] at hmem
      rcases cancel_cases h.intact.kept id with ⟨hr, ho⟩ | ⟨hr, r, hrk, he, ho⟩
      · rw [hr] at hmem
        rw [ho]
        exact h.shut q hq hmem
      · rw [ho]
        by_cases hqr : q = r
        · rw [hqr, cancelIn_self]
          rfl
        · rw [cancelIn_other hqr]
          rw [hr] at hmem
          refine h.shut q hq ((List.mem_cons.1 hmem).resolve_left fun heq => hqr ?_)
          exact h.ids q hq r hrk (heq.trans he.symm)

section Accepts

variable (ha : EngineRun.Accepts p (s.call p o) u out t) (h : s.book.Kept) (hp : p ∉ s.known)
include ha h hp

theorem accepts_drawn (q : OrderPtr) : drawnOn q out.fills =
    amount q (consume (within s.run.orders o.isBuy o.toLimit.price) o.remainingQuantity.toNat
      (s.book.book.sideQueue s.run.orders (!o.isBuy))).taken := by
  rw [accepts_taken ha h hp]
  rfl

omit ha hp in
theorem mem_queue {x : OrderPtr × ℕ} {side : Bool}
    (hx : x ∈ s.book.book.sideQueue s.run.orders side) :
    x.1 ∈ s.known ∧ isLive s.run.orders x.1 = true ∧ x.2 = units s.run.orders x.1 := by
  obtain ⟨l, hl, hx'⟩ := mem_sideQueue.1 hx
  obtain ⟨-, hlive, hu⟩ := h.ladder.static_of_mem hx
  exact ⟨h.ringed _ l hl _ (mem_liveQueue.1 hx').1, hlive, hu⟩

variable (ho : o.Fresh)
include ho

theorem accepts_truthful_self : (t.orders p).Truthful ↔ 0 < o.quantity := by
  have hquantity : (u.orders p).quantity = o.quantity := by
    rw [accepts_matched ha h hp (g := Order.quantity) (fun _ _ => rfl), Session.write_self,
      Order.toLimit_static (g := Order.quantity) fun _ _ _ => rfl]
  have hwhole : (u.orders p).Whole := by
    obtain ⟨horders, hfair, -⟩ := accepts_fills ha h hp
    rw [horders]
    refine hfair.whole ?_
    rw [Session.write_self]
    exact ho.toLimit.whole
  rw [ha.orders, setStatus_self]
  constructor
  · rintro ⟨-, -, hnew⟩
    rw [UInt32.pos_iff_ne_zero]
    intro hz
    rw [Order.Whole, hquantity, hz] at hwhole
    change _ = 0 at hwhole
    have hfilled : (u.orders p).filledQuantity = 0 := UInt32.toNat_inj.1 (show _ = 0 by omega)
    have hremaining : (u.orders p).remainingQuantity = 0 := UInt32.toNat_inj.1 (show _ = 0 by omega)
    have hst := hnew.2 hfilled
    change (u.orders p).settledStatus = _ at hst
    rw [Order.settledStatus, if_pos hremaining] at hst
    cases hst
  · intro hpos
    exact Order.truthful_settled hwhole (hquantity ▸ hpos)

theorem drawn_front (hpos : 0 < o.quantity) (hq : q ∈ s.front (!o.isBuy))
    (hwithin : ahead o.isBuy (s.run.orders q).price o.toLimit.price = false) :
    q ∈ s.known ∧ isLive s.run.orders q = true ∧ 0 < drawnOn q out.fills ∧
    (drawnOn q out.fills < units s.run.orders q →
      o.quantity < (s.run.orders q).remainingQuantity) := by
  rw [front, Option.mem_def, Option.map_eq_some_iff] at hq
  obtain ⟨x, hx, rfl⟩ := hq
  obtain ⟨xs, hxs⟩ := List.head?_eq_some_iff.1 hx
  obtain ⟨hk, hlive, hu⟩ := mem_queue h (hxs ▸ List.mem_cons_self)
  have hwants : o.remainingQuantity.toNat ≠ 0 := by
    rw [ho.remaining]
    exact (UInt32.lt_iff_toNat_lt.1 hpos).ne'
  have hok : within s.run.orders o.isBuy o.toLimit.price x.1 = true := by
    rw [within, hwithin]
    rfl
  have hdrawn := accepts_drawn ha h hp x.1
  have hxpos := (isLive_iff.1 hlive).2
  rw [hxs] at hdrawn
  refine ⟨hk, hlive, ?_⟩
  rcases Nat.lt_or_ge o.remainingQuantity.toNat x.2 with hlt | hge
  · rw [consume_part hwants hok hlt, amount_cons, if_pos rfl, amount_nil] at hdrawn
    rw [hu, ho.remaining] at hlt
    exact ⟨by omega, fun _ => UInt32.lt_iff_toNat_lt.2 hlt⟩
  · rw [consume_whole hwants hok hge, amount_cons, if_pos rfl] at hdrawn
    exact ⟨by omega, fun _ => by omega⟩

theorem drawn_partial (hcond : s.FillsPartial (.process p o out))
    (hrisk : s.run.shared.checkRisk o = true) (hd : 0 < drawnOn q out.fills) :
    isLive s.run.orders q = true ∧ 0 < (s.run.orders q).filledQuantity ∧
      drawnOn q out.fills < units s.run.orders q := by
  obtain ⟨hpos, hfront⟩ := hcond hrisk
  have hdrawn := accepts_drawn ha h hp q
  cases hqueue : s.book.book.sideQueue s.run.orders (!o.isBuy) with
  | nil =>
    rw [hqueue, consume_nil, amount_nil] at hdrawn
    omega
  | cons x xs =>
    obtain ⟨-, hlive, hu⟩ := mem_queue h (hqueue ▸ List.mem_cons_self)
    rw [hqueue] at hdrawn
    cases hwithin : ahead o.isBuy (s.run.orders x.1).price o.toLimit.price with
    | true =>
      rw [consume_refused (by rw [within, hwithin]; rfl), amount_nil] at hdrawn
      omega
    | false =>
      obtain ⟨hfilled, hkeeps⟩ := hfront x.1 (by rw [front, hqueue]; rfl) hwithin
      rw [UInt32.lt_iff_toNat_lt, ← ho.remaining] at hkeeps
      have hwants : o.remainingQuantity.toNat ≠ 0 := by
        rw [ho.remaining]
        exact (UInt32.lt_iff_toNat_lt.1 hpos).ne'
      rw [consume_part hwants (by rw [within, hwithin]; rfl) (hu ▸ hkeeps), amount_cons,
        amount_nil] at hdrawn
      by_cases hxq : x.1 = q
      · subst hxq
        rw [if_pos rfl] at hdrawn
        refine ⟨hlive, hfilled, ?_⟩
        rw [units]
        omega
      · rw [if_neg hxq] at hdrawn
        omega

variable (hw : ∀ q ∈ s.known, (s.run.orders q).Whole)
include hw

omit ho in
theorem accepts_fields (ho : o.Fresh) (hq : q ∈ s.known) :
    (t.orders q).status = (s.run.orders q).status ∧
    (t.orders q).filledQuantity.toNat =
      (s.run.orders q).filledQuantity.toNat + drawnOn q out.fills ∧
    (t.orders q).remainingQuantity.toNat + drawnOn q out.fills =
      (s.run.orders q).remainingQuantity.toNat :=
  ⟨accepts_known ha h hp (g := Order.status) (fun _ _ => rfl) hq,
    accepts_filled_known ha h hp ho hw hq, accepts_units ha h hp hq⟩

theorem accepts_truthful_undrawn (hq : q ∈ s.known) (hz : drawnOn q out.fills = 0) :
    (t.orders q).Truthful ↔ (s.run.orders q).Truthful := by
  obtain ⟨hs, hf, hr⟩ := accepts_fields ha h hp hw ho hq
  rw [hz] at hf hr
  rw [Order.Truthful, Order.Truthful, hs, UInt32.toNat_inj.1 hf, UInt32.toNat_inj.1 hr]

theorem accepts_truthful_drawn (hq : q ∈ s.known) (hlive : isLive s.run.orders q = true)
    (ht : (s.run.orders q).Truthful) (hd : 0 < drawnOn q out.fills) : (t.orders q).Truthful ↔
      0 < (s.run.orders q).filledQuantity ∧ drawnOn q out.fills < units s.run.orders q := by
  obtain ⟨hs, hf, hr⟩ := accepts_fields ha h hp hw ho hq
  rw [Order.truthful_trade ht (isLive_iff.1 hlive).1 hs (UInt32.lt_iff_toNat_lt.2 (by
    change 0 < _
    omega))]
  refine and_congr_right fun _ => ?_
  rw [UInt32.lt_iff_toNat_lt, units]
  change 0 < _ ↔ _
  omega

end Accepts

theorem accepts_truthful_iff (ha : EngineRun.Accepts p (s.call p o) u out t) (h : s.Marked)
    (ht : s.Truthful) (hp : p ∉ s.known)
    (hid : ∀ q ∈ s.known, (s.run.orders q).orderId ≠ o.orderId) (ho : o.Fresh)
    (hrisk : s.run.shared.checkRisk o = true) :
    Truthful ⟨t, p :: s.known, s.closed⟩ ↔ s.FillsPartial (.process p o out) := by
  have hk := h.intact.kept
  have hself : (t.orders p).orderId = o.orderId := by
    rw [accepts_self ha hk hp (g := Order.orderId) (fun _ _ => rfl) (fun _ _ => rfl),
      Order.toLimit_static (g := Order.orderId) fun _ _ _ => rfl]
  have hopen : o.orderId ∉ s.closed := fun hmem => by
    obtain ⟨q, hq, he⟩ := h.closed _ hmem
    exact hid q hq he
  have hidq : ∀ q ∈ s.known, (t.orders q).orderId = (s.run.orders q).orderId := fun q hq =>
    accepts_known ha hk hp (g := Order.orderId) (fun _ _ => rfl) hq
  have hlive : ∀ q ∈ s.known, isLive s.run.orders q = true →
      (s.run.orders q).orderId ∉ s.closed := fun q hq hl hmem => by
    rw [isLive, h.shut q hq hmem] at hl
    cases hl
  constructor
  · intro ht' _
    have hpos : 0 < o.quantity := (accepts_truthful_self ha hk hp ho).1
      (ht' p List.mem_cons_self (by rw [hself]; exact hopen))
    refine ⟨hpos, fun q hq hwithin => ?_⟩
    obtain ⟨hqk, hql, hd, hkeeps⟩ := drawn_front ha hk hp ho hpos hq hwithin
    have hafter := ht' q (List.mem_cons_of_mem p hqk) (by
      change (t.orders q).orderId ∉ _
      rw [hidq q hqk]
      exact hlive q hqk hql)
    obtain ⟨hfilled, hlt⟩ := (accepts_truthful_drawn ha hk hp ho h.whole hqk hql
      (ht q hqk (hlive q hqk hql)) hd).1 hafter
    exact ⟨hfilled, hkeeps hlt⟩
  · intro hcond q hq hclosed
    rcases List.mem_cons.1 hq with rfl | hq
    · exact (accepts_truthful_self ha hk hp ho).2 (hcond hrisk).1
    · change (t.orders q).orderId ∉ s.closed at hclosed
      rw [hidq q hq] at hclosed
      have hold := ht q hq hclosed
      change (t.orders q).Truthful
      rcases Nat.eq_zero_or_pos (drawnOn q out.fills) with hz | hd
      · exact (accepts_truthful_undrawn ha hk hp ho h.whole hq hz).2 hold
      · obtain ⟨hql, hpartial⟩ := drawn_partial ha hk hp ho hcond hrisk hd
        exact (accepts_truthful_drawn ha hk hp ho h.whole hq hql hold hd).2 hpartial

theorem RoomyStep.truth (hs : RoomyStep s e s') (h : s.Marked) (ht : s.Truthful) :
    s'.Truthful ↔ s.FillsPartial e := by
  obtain ⟨hs, -⟩ := hs
  cases hs with
  | @process p o out t hp hid ho hc =>
    rcases EngineRun.processOrder_cases hc with ⟨hrisk, hr⟩ | ⟨hrisk, u, ha⟩
    · rw [call_self] at hrisk
      refine iff_of_true (fun q hq hclosed => ?_) fun htrue => ?_
      · change (t.orders q).orderId ∉ if out.accepted then s.closed else o.orderId :: s.closed
          at hclosed
        change (t.orders q).Truthful
        rw [hr.outcome] at hclosed
        rw [refuses_orders hr] at hclosed ⊢
        rcases List.mem_cons.1 hq with rfl | hq
        · rw [Session.write_self] at hclosed
          exact absurd List.mem_cons_self hclosed
        · rw [Session.write_known hp _ hq] at hclosed ⊢
          exact ht q hq fun hmem => hclosed (List.mem_cons_of_mem _ hmem)
      · exact absurd (hrisk.symm.trans htrue) Bool.false_ne_true
    · rw [call_self] at hrisk
      have hiff := accepts_truthful_iff ha h ht hp hid ho hrisk
      rw [← hiff, ha.outcome]
      exact Iff.rfl
  | cancel id =>
    refine iff_of_true (fun q hq hclosed => ?_) trivial
    change ((s.run.cancelOrder id).2.orders q).Truthful
    change ((s.run.cancelOrder id).2.orders q).orderId ∉ _ at hclosed
    rw [cancel_static h.intact.kept id (g := Order.orderId) fun _ => rfl] at hclosed
    rcases cancel_cases h.intact.kept id with ⟨hr, ho⟩ | ⟨hr, r, hrk, he, ho⟩
    · rw [hr] at hclosed
      rw [ho]
      exact ht q hq hclosed
    · rw [hr] at hclosed
      have hqr : q ≠ r := fun heq => hclosed (by rw [heq, he]; exact List.mem_cons_self)
      rw [ho, cancelIn_other hqr]
      exact ht q hq fun hmem => hclosed (List.mem_cons_of_mem _ hmem)

instance (s : EngineSession) : (e : EngineEvent) → Decidable (s.FillsPartial e)
  | .process _ o _ => inferInstanceAs (Decidable (s.run.shared.checkRisk o = true → _))
  | .cancel .. => isTrue trivial

instance (s : EngineSession) : Decidable s.Truthful :=
  inferInstanceAs (Decidable (∀ q ∈ s.known, _))

/-- The statuses tell the truth throughout a run exactly when no step fills an order up, or an order
that was still unfilled, while it rests. -/
theorem truthful_iff {symbol : List UInt8} {shared : Collaborators}
    (h : Runs RoomyStep (start symbol shared) ts s) :
    (∀ x ∈ ts, x.2.2.Truthful) ↔ ∀ x ∈ ts, x.1.FillsPartial x.2.1 := by
  refine h.throughout_iff (I := fun s => s.Marked ∧ s.Truthful) (P := Truthful)
    (C := fun x => x.1.FillsPartial x.2.1) ⟨marked_start symbol shared, fun q hq => by cases hq⟩
    (fun _ hi => hi.2) ?_ ?_
  · exact fun _ _ _ hi hs hc => ⟨hs.marked hi.1, (hs.truth hi.1 hi.2).2 hc⟩
  · exact fun _ _ _ hi hs ht => (hs.truth hi.1 hi.2).1 ht

theorem truthful_iff_far_apart : ∃ ts s,
    Runs RoomyStep (start [] {}) ts s ∧ ts.length = 3 ∧ ∀ x ∈ ts, x.2.2.Truthful := by
  obtain ⟨ts, s, hr, hok⟩ := exists_roomy_run [] {}
    [.process 1 (.limit 1 .SELL 100 5), .process 2 (.limit 2 .BUY 99 3), .cancel 1]
    (fun ts _ => ts.all (fun x => x.1.FillsPartial x.2.1) && ts.length = 3) (by decide +kernel)
  rw [Bool.and_eq_true, List.all_eq_true] at hok
  exact ⟨ts, s, hr, of_decide_eq_true hok.2,
    (truthful_iff hr).2 fun x hx => of_decide_eq_true (hok.1 x hx)⟩

/-- A resting order that is filled up keeps the status it had. -/
theorem filled_maker_still_new : ∃ ts s, Runs RoomyStep (start [] {}) ts s ∧ 1 ∈ s.known ∧
    s.closed = [] ∧ (s.run.orders 1).remainingQuantity = 0 ∧ (s.run.orders 1).status = .NEW ∧
    ¬ s.Truthful := by
  obtain ⟨ts, s, hr, hok⟩ := exists_roomy_run [] {}
    [.process 1 (.limit 1 .SELL 100 5), .process 2 (.limit 2 .BUY 100 5)]
    (fun _ s => decide (1 ∈ s.known ∧ s.closed = [] ∧ (s.run.orders 1).remainingQuantity = 0 ∧
      (s.run.orders 1).status = .NEW ∧ ¬ s.Truthful)) (by decide +kernel)
  exact ⟨ts, s, hr, of_decide_eq_true hok⟩

end EngineSession

end Velox
