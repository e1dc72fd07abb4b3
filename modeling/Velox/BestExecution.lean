import Velox.BookSession
import Velox.Lib.Allocation

namespace Velox.Session
set_option autoImplicit true

open Greedy OrderBook PriceLevel

/-- A way to serve an incoming order from the live orders of the other side within its limit: how
many units to take of each. -/
structure Plan (s : Session) (o : Order) (f : OrderPtr → ℕ) : Prop where
  fits : ∀ q, f q ≤ units s.orders q
  offered : ∀ q, f q ≠ 0 → q ∈ s.known ∧ isLive s.orders q = true ∧
    (s.orders q).isBuy = !o.isBuy ∧ within s.orders o.isBuy o.price q = true

def plannedUnits (s : Session) (f : OrderPtr → ℕ) : ℕ := ∑ q ∈ s.known.toFinset, f q

/-- What a plan takes, at the prices of the resting orders. -/
def plannedValue (s : Session) (f : OrderPtr → ℕ) : ℤ :=
  ∑ q ∈ s.known.toFinset, (s.orders q).price.toInt * f q

def drawnValue (s : Session) (fills : List Fill) : ℤ :=
  (fills.map fun x => (s.orders x.order).price.toInt * x.quantity.toNat).sum

/-- What one unit of a resting order costs the owner of an order of side `side`. -/
def unitCost (s : Session) (side : Bool) (q : OrderPtr) : ℤ :=
  if side then (s.orders q).price.toInt else -(s.orders q).price.toInt

variable {s t u : Session} {p : OrderPtr} {o : Order} {f : OrderPtr → ℕ} {fills : List Fill}
  {side : Bool}

theorem ahead_false_iff {x y : Int64} : ahead side x y = false ↔
    (if side then x.toInt else -x.toInt) ≤ if side then y.toInt else -y.toInt := by
  cases side with
  | true => simp only [ahead, if_true, decide_eq_false_iff_not, gt_iff_lt, Int64.not_lt,
      Int64.le_iff_toInt_le]
  | false => simp only [ahead, Bool.false_eq_true, if_false, decide_eq_false_iff_not, Int64.not_lt,
      Int64.le_iff_toInt_le, Int.neg_le_neg_iff]

theorem Kept.cost_sorted (h : s.Kept) (side : Bool) :
    (s.book.sideQueue s.orders (!side)).Pairwise fun x y =>
      s.unitCost side x.1 ≤ s.unitCost side y.1 := by
  refine (h.ladder.sideQueue_sorted (!side)).imp fun hxy => ?_
  rw [ahead_flip, ahead_false_iff] at hxy
  exact hxy

theorem Kept.within_sorted (h : s.Kept) (side : Bool) (limit : Int64) :
    (s.book.sideQueue s.orders (!side)).Pairwise fun x y =>
      within s.orders side limit y.1 = true → within s.orders side limit x.1 = true := by
  refine (h.cost_sorted side).imp fun hxy hy => ?_
  rw [within, Bool.not_eq_true', ahead_false_iff] at hy ⊢
  exact hxy.trans hy

section Plan

variable (hf : Plan s o f)
include hf

theorem Plan.allocation (h : s.Intact) :
    Allocation (within s.orders o.isBuy o.price) (s.book.sideQueue s.orders (!o.isBuy)) f where
  fits := fun x hx => by
    rw [(h.ladder.static_of_mem hx).2.2]
    exact hf.fits x.1
  refused := fun x hx hno => by
    by_contra hne
    rw [(hf.offered x.1 hne).2.2.2] at hno
    cases hno

theorem Plan.sum_known {M : Type*} [AddCommMonoid M] (h : s.Intact) (g : OrderPtr → M)
    (hg : ∀ q, f q = 0 → g q = 0) :
    ∑ q ∈ s.known.toFinset, g q =
      ((s.book.sideQueue s.orders (!o.isBuy)).map fun x => g x.1).sum := by
  have hsub : ((s.book.sideQueue s.orders (!o.isBuy)).map Prod.fst).toFinset ⊆
      s.known.toFinset := by
    intro q hq
    obtain ⟨x, hx, rfl⟩ := List.mem_map.1 (List.mem_toFinset.1 hq)
    obtain ⟨l, hl, hx⟩ := mem_sideQueue.1 hx
    exact List.mem_toFinset.2 (h.ringed _ l hl _ (mem_liveQueue.1 hx).1)
  rw [← Finset.sum_subset hsub, List.sum_toFinset _ (h.ladder.sideQueue_nodup _), List.map_map]
  · rfl
  · intro q _ hout
    refine hg q ?_
    by_contra hne
    obtain ⟨hk, hlive, hside, -⟩ := hf.offered q hne
    have hmem := h.queued q hk hlive
    rw [hside] at hmem
    exact hout (List.mem_toFinset.2 (List.mem_map_of_mem hmem))

theorem Plan.planned_eq (h : s.Intact) :
    planned f (s.book.sideQueue s.orders (!o.isBuy)) = s.plannedUnits f :=
  (hf.sum_known h f fun _ hz => hz).symm

theorem Plan.planCost_eq (h : s.Intact) :
    planCost (s.unitCost o.isBuy) f (s.book.sideQueue s.orders (!o.isBuy)) =
      if o.isBuy then s.plannedValue f else -s.plannedValue f := by
  rw [planCost, ← hf.sum_known h (fun q => s.unitCost o.isBuy q * f q) fun q hz => by
    rw [hz, Nat.cast_zero, mul_zero], plannedValue]
  cases o.isBuy with
  | true => rfl
  | false => simp only [unitCost, Bool.false_eq_true, if_false, neg_mul, Finset.sum_neg_distrib]

end Plan

theorem cost_pairs (s : Session) (side : Bool) (fills : List Fill) :
    cost (s.unitCost side) (fills.map Fill.pair) =
      if side then s.drawnValue fills else -s.drawnValue fills := by
  rw [cost, drawnValue, List.map_map]
  cases side with
  | true => rfl
  | false =>
    rw [if_neg Bool.false_ne_true, List.sum_neg, List.map_map]
    exact congrArg List.sum (List.map_congr_left fun x _ => neg_mul _ _)

end Velox.Session
