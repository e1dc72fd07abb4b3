import Velox.Conservation

namespace Velox
set_option autoImplicit true

open Greedy OrderBook PriceLevel

variable {p q : OrderPtr} {o : Order}

/-- No part of the order is in the book: it has no ring slot, no index entry and no share of the depth
of its side. -/
structure OrderBook.Unrested (b b' : OrderBook) (p : OrderPtr) (o : Order) : Prop where
  ring : Unringed b' p
  index : b'.mOrderIndex o.orderId = none
  depth : b'.depth o.isBuy = b.depth o.isBuy

namespace EngineSession

variable {s s' : EngineSession} {t : EngineRun} {u : BookRun} {out : Outcome}

def FillsUp (t : EngineSession) (p : OrderPtr) : Prop :=
  (t.run.orders p).remainingQuantity = 0 ∧
    (t.run.orders p).filledQuantity = (t.run.orders p).quantity

/-- No order has filled anything, the new one included. -/
def FillsNone (s t : EngineSession) (p : OrderPtr) : Prop :=
  (t.run.orders p).filledQuantity = 0 ∧
    ∀ q ∈ s.known, (t.run.orders q).filledQuantity = (s.run.orders q).filledQuantity

/-- What is asked of a call with an immediate order: nothing of it rests, and a fill-or-kill order is
filled completely or not at all. -/
def Immediate (s t : EngineSession) (p : OrderPtr) (o : Order) : Prop :=
  if o.type = .FOK then FillsUp t p ∨ (FillsNone s t p ∧ Unrested s.book.book t.book.book p o)
  else Unrested s.book.book t.book.book p o

/-- The units that the live orders of the other side offer within the limit of an order; a market
order takes any price on a buy and any that is not negative on a sale. -/
def offered (s : EngineSession) (o : Order) : ℕ :=
  total ((s.book.book.sideQueue s.run.orders (!o.isBuy)).filter fun x =>
    within s.run.orders o.isBuy o.toLimit.price x.1)

section Accepts

variable (ha : EngineRun.Accepts p (s.call p o) u out t) (h : s.book.Kept) (hp : p ∉ s.known)
include ha h hp

theorem accepts_volume : volume out.fills = min o.remainingQuantity.toNat (s.offered o) := by
  have hsorted : (s.book.book.sideQueue s.run.orders (!o.isBuy)).Pairwise fun x y =>
      within s.run.orders o.isBuy o.toLimit.price y.1 = true →
        within s.run.orders o.isBuy o.toLimit.price x.1 = true := by
    refine (h.ladder.sideQueue_sorted (!o.isBuy)).imp fun hxy hy => ?_
    rw [within, Bool.not_eq_true'] at hy ⊢
    rw [ahead_flip] at hxy
    exact not_ahead_trans hxy hy
  have htaken := total_taken_add_left (within s.run.orders o.isBuy o.toLimit.price)
    o.remainingQuantity.toNat (s.book.book.sideQueue s.run.orders (!o.isBuy))
  rw [left_eq_of_sorted hsorted, accepts_taken ha h hp] at htaken
  change volume out.fills + (_ - s.offered o) = _ at htaken
  omega

theorem accepts_left : units u.orders p = o.remainingQuantity.toNat - s.offered o := by
  obtain ⟨horders, hfair, -⟩ := accepts_fills ha h hp
  have hunits := hfair.units_incoming
  rw [← horders, accepts_volume ha h hp, units, units, Session.write_self,
    Order.toLimit_static (g := Order.remainingQuantity) fun _ _ _ => rfl] at hunits
  rw [units]
  omega

theorem unrested_iff (hid : ∀ q ∈ s.known, (s.run.orders q).orderId ≠ o.orderId) :
    Unrested s.book.book t.engine.mOrderBook p o ↔ units u.orders p = 0 := by
  obtain ⟨r, hm⟩ := accepts_call ha
  have hfree : s.book.book.mOrderIndex o.orderId = none := by
    cases hi : s.book.book.mOrderIndex o.orderId with
    | none => rfl
    | some loc =>
      obtain ⟨hk, hloc, -⟩ := h.indexed _ loc hi
      exact absurd hloc (hid _ hk)
  have hself : (s.book.call p o.toLimit).orders p = o.toLimit := Session.call_self s.book p o.toLimit
  rw [ha.book]
  rcases h.match_cases hp hm with ⟨hz, rfl, -⟩ | ⟨-, ⟨v, fs, hpr, -⟩, -⟩
  · refine iff_of_true ⟨h.unringed hp, hfree, rfl⟩ ?_
    rw [units_eq_zero_iff, hself]
    exact hz
  · rw [hpr.orders]
    have hindex := hpr.index_eq
    rw [hself, Order.toLimit_static (g := Order.orderId) fun _ _ _ => rfl] at hindex
    rcases hindex with ⟨hz, he⟩ | ⟨hpos, he⟩
    · refine iff_of_true ⟨?_, by rw [he]; exact hfree, ?_⟩ hz
      · rw [hpr.book, rest_nothing hz]
        exact hpr.crossed.unringed
      · rw [hpr.book, rest_nothing hz]
        have hown := hpr.crossed.depth_own
        rwa [Order.toLimit_static (g := Order.isBuy) fun _ _ _ => rfl] at hown
    · refine iff_of_false (fun hu => ?_) hpos.ne'
      have hnone := hu.index
      rw [he, Function.update_self] at hnone
      cases hnone

theorem fillsUp_iff (ho : o.Fresh) (c : List UInt64) :
    FillsUp ⟨t, p :: s.known, c⟩ p ↔ units u.orders p = 0 := by
  have hrem : (t.orders p).remainingQuantity = (u.orders p).remainingQuantity :=
    accepts_static ha (fun _ _ => rfl) p
  rw [units_eq_zero_iff, ← hrem]
  refine ⟨fun hf => hf.1, fun hz => ⟨hz, ?_⟩⟩
  obtain ⟨horders, hfair, -⟩ := accepts_fills ha h hp
  have hwhole : (t.orders p).Whole := by
    rw [accepts_static ha (g := Order.Whole) (fun _ _ => rfl), horders]
    refine hfair.whole ?_
    rw [Session.write_self]
    exact ho.toLimit.whole
  rw [Order.Whole, hz] at hwhole
  exact UInt32.toNat_inj.1 hwhole

end Accepts

/-- In every state that an engine reaches, an order that passes the risk check, and whose call returns,
is dealt with as an immediate one exactly when the live orders of the other side offer its whole
quantity within its limit; its type makes no difference. -/
theorem immediate_iff {symbol : List UInt8} {shared : Collaborators}
    (h : Runs Step (start symbol shared) ts s) (hs : Step s (.process p o out) s')
    (hok : out.accepted = true) :
    Immediate s s' p o ↔ o.quantity.toNat ≤ s.offered o := by
  have hk := kept_of_runs h
  cases hs with
  | @process _ _ _ t hp hid ho hc =>
    rcases EngineRun.processOrder_cases hc with ⟨-, hr⟩ | ⟨-, u, ha⟩
    · rw [hr.outcome] at hok
      cases hok
    · have hleft := accepts_left ha hk hp
      have hunrested := unrested_iff ha hk hp hid
      rw [ho.remaining] at hleft
      have hiff : units u.orders p = 0 ↔ o.quantity.toNat ≤ s.offered o := by omega
      rw [← hiff, Immediate]
      split
      · rw [fillsUp_iff ha hk hp ho]
        exact ⟨fun hi => hi.elim id fun hn => hunrested.1 hn.2, .inl⟩
      · exact hunrested

/-- A market order for three units, of which five are offered. -/
theorem immediate_iff_market : ∃ ts s, Runs Step (start [] {}) ts s ∧ ∃ u p o out t,
    (u, EngineEvent.process p o out, t) ∈ ts ∧ o.type = .MARKET ∧ Immediate u t p o := by
  obtain ⟨ts, s, h, hok⟩ := exists_run [] {}
    [.process 1 (.limit 1 .SELL 101 5),
      .process 2 { Order.limit 2 .BUY 0 3 with type := .MARKET }]
    (fun ts _ => ts.any fun x => x.2.1.casesOn
      (fun _ o out =>
        out.accepted && o.type == .MARKET && decide (o.quantity.toNat ≤ x.1.offered o))
      fun _ _ => false) (by decide +kernel)
  rw [List.any_eq_true] at hok
  obtain ⟨⟨u, e, t⟩, hx, hok⟩ := hok
  cases e with
  | cancel id r => cases hok
  | process p o out =>
    simp only [Bool.and_eq_true, beq_iff_eq, decide_eq_true_eq] at hok
    obtain ⟨⟨hacc, htype⟩, hle⟩ := hok
    obtain ⟨hstep, us, hus, -⟩ := h.of_mem hx
    exact ⟨ts, s, h, u, p, o, out, t, hx, htype,
      (immediate_iff hus hstep hacc).2 hle⟩

/-- An order of any type for seven units, of which five are offered, rests with two. -/
theorem immediate_remainder_rests (type : OrderType) :
    ∃ ts s, Runs Step (start [] {}) ts s ∧ ∃ u p o out t,
      (u, EngineEvent.process p o out, t) ∈ ts ∧ out.accepted = true ∧ o.type = type ∧
        t.book.book.depth true = 2 ∧ ¬ Immediate u t p o := by
  obtain ⟨ts, s, h, hok⟩ := exists_run [] {}
    [.process 1 (.limit 1 .SELL 101 5), .process 2 { Order.limit 2 .BUY 101 7 with type }]
    (fun ts _ => ts.any fun x => x.2.1.casesOn
      (fun p o out => out.accepted && o.type == type && x.2.2.book.book.depth true == 2 &&
        (x.2.2.run.orders p).remainingQuantity == 2 &&
        (x.2.2.book.book.mOrderIndex o.orderId).isSome)
      fun _ _ => false) (by cases type <;> decide +kernel)
  rw [List.any_eq_true] at hok
  obtain ⟨⟨u, e, t⟩, hx, hok⟩ := hok
  cases e with
  | cancel id r => cases hok
  | process p o out =>
    simp only [Bool.and_eq_true, beq_iff_eq] at hok
    obtain ⟨⟨⟨⟨hacc, hty⟩, hdepth⟩, hrem⟩, hindex⟩ := hok
    refine ⟨ts, s, h, u, p, o, out, t, hx, hacc, hty, hdepth, fun hi => ?_⟩
    have hrests : ¬ Unrested u.book.book t.book.book p o := fun hu => by
      rw [hu.index] at hindex
      cases hindex
    rw [Immediate] at hi
    split at hi
    · rcases hi with hf | hf
      · rw [FillsUp, hrem] at hf
        cases hf.1
      · exact hrests hf.2
    · exact hrests hi

theorem market_remainder_rests : ∃ ts s, Runs Step (start [] {}) ts s ∧ ∃ u p o out t,
    (u, EngineEvent.process p o out, t) ∈ ts ∧ out.accepted = true ∧ o.type = .MARKET ∧
      t.book.book.depth true = 2 ∧ ¬ Immediate u t p o :=
  immediate_remainder_rests .MARKET

end EngineSession

end Velox
