import Velox.Conservation

namespace Velox
set_option autoImplicit true

open Greedy OrderBook PriceLevel

variable {p q : OrderPtr} {o : Order} {orders : OrderHeap} {fs : List Fill} {bs cs : List Booking}
  {side : Bool} {x : Int64}

def cash (orders : OrderHeap) (side : Bool) (bs : List Booking) : ℤ :=
  ((bs.filter fun b => (orders b.order).isBuy = side).map fun b =>
    (b.quantity.toNat : ℤ) * b.price.toInt).sum

theorem cash_uniform (h : ∀ b ∈ bs, b.price = x) :
    cash orders side bs = EngineSession.bookedSide orders side bs * x.toInt := by
  rw [cash, EngineSession.bookedSide]
  have hfiltered : ∀ b ∈ bs.filter fun b => (orders b.order).isBuy = side, b.price = x :=
    fun b hb => h b (List.mem_of_mem_filter hb)
  generalize bs.filter (fun b => (orders b.order).isBuy = side) = cs at hfiltered
  induction cs with
  | nil => exact (Int.zero_mul _).symm
  | cons b cs ih =>
    rw [List.map_cons, List.sum_cons, List.map_cons, List.sum_cons,
      ih fun c hc => hfiltered c (List.mem_cons_of_mem b hc), hfiltered b List.mem_cons_self,
      Nat.cast_add, Int.add_mul]

def EngineEvent.bookings : EngineEvent → List Booking
  | .process _ _ out => out.bookings
  | .cancel .. => []

namespace EngineSession

variable {s s' : EngineSession} {t : EngineRun} {u : BookRun} {out : Outcome} {e : EngineEvent}

/-- Every fill has the price of its resting order, and both sides of it are booked at that price. -/
def RightlyPriced (t : EngineSession) : EngineEvent → Prop
  | .process p _ out => ∀ f ∈ out.fills, f.price = (t.run.orders f.order).price ∧
      ∀ b ∈ out.bookings, b.order = f.order ∨ b.order = p → b.price = f.price
  | .cancel .. => True

/-- No live order of the other side has a better price than the order's own limit, which for a
market order is the most aggressive one. -/
def AtLimit (s : EngineSession) : EngineEvent → Prop
  | .process _ o _ => s.run.shared.checkRisk o = true → 0 < o.quantity → ∀ q ∈ s.known,
      isLive s.run.orders q = true → (s.run.orders q).isBuy = !o.isBuy →
        if o.isBuy then ¬ (s.run.orders q).price < o.toLimit.price
        else ¬ (s.run.orders q).price > o.toLimit.price
  | .cancel .. => True

def cashOver (side : Bool) (ts : List (EngineSession × EngineEvent × EngineSession)) : ℤ :=
  (ts.map fun x => cash x.2.2.run.orders side x.2.1.bookings).sum

theorem not_better_iff : (if o.isBuy then ¬ x < o.toLimit.price else ¬ x > o.toLimit.price) ↔
    ahead (!o.isBuy) x o.toLimit.price = false := by
  cases o.isBuy <;> simp only [ahead, Bool.not_true, Bool.not_false, Bool.false_eq_true, if_true,
    if_false, decide_eq_false_iff_not]

section Accepts

variable (ha : EngineRun.Accepts p (s.call p o) u out t) (h : s.book.Kept) (hp : p ∉ s.known)
include ha h hp

theorem limit_of_taker : (u.orders p).price = o.toLimit.price := by
  rw [accepts_matched ha h hp (g := Order.price) (fun _ _ => rfl), Session.write_self]

theorem price_of_fill {f : Fill} (hf : f ∈ out.fills) : f.price = o.toLimit.price := by
  rw [(accepts_fills ha h hp).2.1.price_eq hf, Session.write_self]

theorem maker_within {f : Fill} (hf : f ∈ out.fills) :
    isLive s.run.orders f.order = true ∧
      ahead o.isBuy (s.run.orders f.order).price o.toLimit.price = false := by
  have hmem : f.pair ∈ out.fills.map Fill.pair := List.mem_map_of_mem hf
  rw [← accepts_taken ha h hp] at hmem
  obtain ⟨hwithin, a, hqueue, -⟩ := mem_taken hmem
  refine ⟨(h.ladder.static_of_mem hqueue).2.1, ?_⟩
  rw [within, Bool.not_eq_true'] at hwithin
  exact hwithin

/-- Every booking has the price of its own order, the taker's its limit. -/
theorem price_of_booking {b : Booking} (hb : b ∈ out.bookings) :
    (∃ f ∈ out.fills, b.order = f.order ∧ b.price = (s.run.orders f.order).price) ∨
      (b.order = p ∧ b.price = o.toLimit.price) := by
  obtain ⟨-, -, hmakers⟩ := accepts_fills ha h hp
  rw [ha.outcome] at hb hmakers ⊢
  rcases List.mem_append.1 hb with hb | hb
  · obtain ⟨f, hf, rfl⟩ := List.mem_map.1 hb
    refine .inl ⟨f, hf, rfl, ?_⟩
    refine (accepts_matched ha h hp (g := Order.price) (fun _ _ => rfl) f.order).trans ?_
    rw [Session.write_known hp _ (hmakers f hf).1]
    rfl
  · rw [mem_takerBookings hb]
    exact .inr ⟨rfl, limit_of_taker ha h hp⟩

theorem maker_price (c : List UInt64) {f : Fill} (hf : f ∈ out.fills) :
    ((⟨t, p :: s.known, c⟩ : EngineSession).run.orders f.order).price =
      (s.run.orders f.order).price :=
  accepts_known ha h hp (fun _ _ => rfl) ((accepts_fills ha h hp).2.2 f hf).1

theorem priced_of_atLimit (ho : o.Fresh) (c : List UInt64) (hrisk : s.run.shared.checkRisk o = true)
    (hat : s.AtLimit (.process p o out)) :
    RightlyPriced ⟨t, p :: s.known, c⟩ (.process p o out) := by
  have hlimit : ∀ f ∈ out.fills, (s.run.orders f.order).price = o.toLimit.price := fun f hf => by
    obtain ⟨hlive, hwithin⟩ := maker_within ha h hp hf
    obtain ⟨hk, hside⟩ := (accepts_fills ha h hp).2.2 f hf
    have hpos : 0 < o.quantity := by
      rw [← ho.remaining, UInt32.pos_iff_ne_zero]
      intro hz
      have htaken := accepts_taken ha h hp
      rw [hz, show (0 : UInt32).toNat = 0 from rfl, consume_zero, eq_comm,
        List.map_eq_nil_iff] at htaken
      rw [htaken] at hf
      cases hf
    have hbetter := not_better_iff.1 (hat hrisk hpos _ hk hlive hside)
    by_contra hne
    rw [ahead_flip, ahead_of_ne hne hwithin] at hbetter
    cases hbetter
  intro f hf
  rw [maker_price ha h hp c hf, price_of_fill ha h hp hf, hlimit f hf]
  refine ⟨rfl, fun b hb _ => ?_⟩
  rcases price_of_booking ha h hp hb with ⟨g, hg, -, he⟩ | ⟨-, he⟩
  · rw [he, hlimit g hg]
  · exact he

end Accepts

/-- A better order on the other side puts a better one in front, and that one trades. -/
theorem atLimit_of_priced (ha : EngineRun.Accepts p (s.call p o) u out t) (h : s.book.Intact)
    (hp : p ∉ s.known) (ho : o.Fresh) (c : List UInt64)
    (hright : RightlyPriced ⟨t, p :: s.known, c⟩ (.process p o out)) :
    s.AtLimit (.process p o out) := by
  intro _ hpos q hq hlive hside
  rw [not_better_iff]
  by_contra hbetter
  rw [Bool.not_eq_false] at hbetter
  have hqueued := h.queued q hq hlive
  rw [show (s.book.orders q).isBuy = !o.isBuy from hside] at hqueued
  have hsorted := h.ladder.sideQueue_sorted (!o.isBuy)
  have htaken := accepts_taken ha h.kept hp
  change (consume _ _ (s.book.book.sideQueue s.book.orders (!o.isBuy))).taken = _ at htaken
  cases hqueue : s.book.book.sideQueue s.book.orders (!o.isBuy) with
  | nil =>
    rw [hqueue] at hqueued
    cases hqueued
  | cons x xs =>
    rw [hqueue] at hqueued hsorted htaken
    have hfront : ahead (!o.isBuy) (s.run.orders x.1).price o.toLimit.price = true := by
      rcases List.mem_cons.1 hqueued with rfl | hmem
      · exact hbetter
      · have hbehind := (List.pairwise_cons.1 hsorted).1 _ hmem
        by_cases he : (s.run.orders q).price = (s.run.orders x.1).price
        · rw [← he]
          exact hbetter
        · exact ahead_trans (ahead_of_ne he hbehind) hbetter
    have hwithin : within s.run.orders o.isBuy o.toLimit.price x.1 = true := by
      rw [within, ← Bool.not_not o.isBuy, ahead_flip, ahead_asymm hfront]
      rfl
    have hwants : o.remainingQuantity.toNat ≠ 0 := fun hz => by
      rw [ho.remaining] at hz
      rw [UInt32.lt_iff_toNat_lt, hz] at hpos
      cases hpos
    obtain ⟨n, ys, hys⟩ := head_taken x.2 xs hwants hwithin
    rw [hys] at htaken
    obtain ⟨f, fs, hfs, hf, -⟩ := List.map_eq_cons_iff.1 htaken.symm
    have hmem : f ∈ out.fills := hfs ▸ List.mem_cons_self
    have hprice := (hright f hmem).1
    have horder : f.order = x.1 := congrArg Prod.fst hf
    rw [maker_price ha h.kept hp c hmem, price_of_fill ha h.kept hp hmem, horder] at hprice
    rw [← hprice, ahead_irrefl] at hfront
    cases hfront

theorem cash_even (ha : EngineRun.Accepts p (s.call p o) u out t) (h : s.book.Kept)
    (hp : p ∉ s.known) (ho : o.Fresh) {c : List UInt64}
    (hright : RightlyPriced ⟨t, p :: s.known, c⟩ (.process p o out)) :
    cash t.orders true out.bookings = cash t.orders false out.bookings := by
  have hprice : ∀ b ∈ out.bookings, b.price = o.toLimit.price := fun b hb => by
    rcases price_of_booking ha h hp hb with ⟨f, hf, hbf, -⟩ | ⟨-, he⟩
    · rw [(hright f hf).2 b hb (.inl hbf), price_of_fill ha h hp hf]
    · exact he
  have hcash : ∀ side, cash t.orders side out.bookings =
      volume out.fills * o.toLimit.price.toInt := fun side => by
    rw [cash_uniform hprice, ← booked_units ha h hp ho side, bookedSide, bookedSide,
      List.filter_congr fun b _ => by
        rw [accepts_static ha (g := Order.isBuy) (fun _ _ => rfl) b.order]]
  rw [hcash, hcash]

theorem RoomyStep.priced (hs : RoomyStep s e s') (h : s.book.Intact) :
    (s'.RightlyPriced e ↔ s.AtLimit e) ∧
      (s'.RightlyPriced e → cash s'.run.orders true e.bookings =
        cash s'.run.orders false e.bookings) := by
  obtain ⟨hs, -⟩ := hs
  cases hs with
  | @process p o out t hp hid ho hc =>
    rcases EngineRun.processOrder_cases hc with ⟨hrisk, hr⟩ | ⟨hrisk, u, ha⟩
    · rw [call_self] at hrisk
      refine ⟨iff_of_true ?_ fun htrue => ?_, fun _ => ?_⟩
      · rw [RightlyPriced, hr.outcome]
        exact fun f hf => by cases hf
      · exact absurd (hrisk.symm.trans htrue) Bool.false_ne_true
      · rw [EngineEvent.bookings, hr.outcome]
        rfl
    · rw [call_self] at hrisk
      exact ⟨⟨atLimit_of_priced ha h hp ho _, priced_of_atLimit ha h.kept hp ho _ hrisk⟩,
        cash_even ha h.kept hp ho⟩
  | cancel id => exact ⟨Iff.rfl, fun _ => rfl⟩

instance (t : EngineSession) : (e : EngineEvent) → Decidable (t.RightlyPriced e)
  | .process _ _ out => inferInstanceAs (Decidable (∀ f ∈ out.fills, _))
  | .cancel .. => isTrue trivial

instance (s : EngineSession) : (e : EngineEvent) → Decidable (s.AtLimit e)
  | .process _ o _ => inferInstanceAs (Decidable (s.run.shared.checkRisk o = true → _))
  | .cancel .. => isTrue trivial

/-- A run prices all its trades at the resting orders' limits, and moves money evenly, exactly when
every order came in at the limit. -/
theorem rightly_priced_iff {symbol : List UInt8} {shared : Collaborators}
    (h : Runs RoomyStep (start symbol shared) ts s) :
    ((∀ x ∈ ts, x.2.2.RightlyPriced x.2.1) ∧ cashOver true ts = cashOver false ts) ↔
      ∀ x ∈ ts, x.1.AtLimit x.2.1 := by
  have hstep : ∀ x ∈ ts, (x.2.2.RightlyPriced x.2.1 ↔ x.1.AtLimit x.2.1) ∧
      (x.2.2.RightlyPriced x.2.1 → cash x.2.2.run.orders true x.2.1.bookings =
        cash x.2.2.run.orders false x.2.1.bookings) := fun x hx => by
    obtain ⟨hs, us, hus, -⟩ := h.of_mem hx
    exact RoomyStep.priced hs (intact_of_runs hus)
  constructor
  · exact fun hright x hx => (hstep x hx).1.1 (hright.1 x hx)
  · intro hat
    have hright : ∀ x ∈ ts, x.2.2.RightlyPriced x.2.1 := fun x hx => (hstep x hx).1.2 (hat x hx)
    refine ⟨hright, ?_⟩
    rw [cashOver, cashOver]
    congr 1
    apply List.map_congr_left
    exact fun x hx => (hstep x hx).2 (hright x hx)

theorem rightly_priced_iff_two_levels : ∃ ts s,
    Runs RoomyStep (start [] { positionManager := some {} }) ts s ∧
    cashOver true ts = 500 ∧ cashOver true ts = cashOver false ts := by
  obtain ⟨ts, s, hr, hok⟩ := exists_roomy_run [] { positionManager := some {} }
    [.process 1 (.limit 1 .SELL 100 5), .process 2 (.limit 2 .SELL 102 4),
      .process 3 (.limit 3 .BUY 100 7), .cancel 2]
    (fun ts s => ts.all (fun x => x.1.AtLimit x.2.1) && cashOver true ts = 500) (by decide +kernel)
  rw [Bool.and_eq_true, List.all_eq_true] at hok
  exact ⟨ts, s, hr, of_decide_eq_true hok.2,
    ((rightly_priced_iff hr).2 fun x hx => of_decide_eq_true (hok.1 x hx)).2⟩

/-- A buy at 103 trades with a sell at 100: the fill and the taker are priced 103, the maker 100. -/
theorem taker_price_booked : ∃ ts s,
    Runs RoomyStep (start [] { positionManager := some {} }) ts s ∧
    (ts.any fun x => x.2.1.bookings = [⟨1, 5, 100⟩, ⟨2, 5, 103⟩]) = true ∧
    ¬ (∀ x ∈ ts, x.2.2.RightlyPriced x.2.1) ∧ cashOver true ts = 515 ∧ cashOver false ts = 500 := by
  obtain ⟨ts, s, hr, hok⟩ := exists_roomy_run [] { positionManager := some {} }
    [.process 1 (.limit 1 .SELL 100 5), .process 2 (.limit 2 .BUY 103 5)]
    (fun ts _ => ts.any (fun x => x.2.1.bookings = [⟨1, 5, 100⟩, ⟨2, 5, 103⟩]) &&
      ts.any (fun x => decide (¬ x.2.2.RightlyPriced x.2.1)) &&
      decide (cashOver true ts = 515 ∧ cashOver false ts = 500)) (by decide +kernel)
  rw [Bool.and_eq_true, Bool.and_eq_true] at hok
  obtain ⟨⟨hb, hany⟩, hcash⟩ := hok
  obtain ⟨x, hx, hnot⟩ := List.any_eq_true.1 hany
  exact ⟨ts, s, hr, hb, fun hall => of_decide_eq_true hnot (hall x hx), of_decide_eq_true hcash⟩

end EngineSession

end Velox
