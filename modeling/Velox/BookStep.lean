import Velox.Resting
import Velox.Cancelling

namespace Velox.OrderBook
set_option autoImplicit true

open Greedy PriceLevel

variable {b : OrderBook} {orders : OrderHeap} {p q : OrderPtr} {s s' : Bool} {u v t : BookRun}
  {fs : List Fill} {r : Option OrderPtr} {l m : LevelPtr}

/-- What a call of `match` does for an order of side `s`: `v` is where the loop leaves it. -/
structure Processed (p : OrderPtr) (s : Bool) (u v t : BookRun) (fs : List Fill) : Prop where
  loop : ∃ n, Loop.run (matchBody p s) n u = some v
  crossed : Crossed p s u v fs
  settled : Settled p s v
  orders : t.orders = v.orders
  fills : t.fills = v.fills
  book : t.book = (v.book.rest p s v.orders).updateBestPrices.bumpSequence

theorem rest_nothing (hz : units orders p = 0) : b.rest p s orders = b := by
  refine if_neg fun hpos => ?_
  rw [units_eq_zero_iff.1 hz] at hpos
  exact absurd hpos (UInt32.lt_irrefl 0)

theorem match_nothing (hq : units u.orders p = 0) : OrderBook.match (some p) u = some (some p, u) :=
  if_pos (units_eq_zero_iff.1 hq)

theorem match_eq (hq : 0 < units u.orders p) : OrderBook.match (some p) u =
    (Loop.run (matchBody p (u.orders p).isBuy)
      ((u.book.levels (!(u.orders p).isBuy)).length + 1) u).map fun v =>
        (if (v.orders p).remainingQuantity > 0 then some p else none,
          { v with book :=
            (v.book.rest p (u.orders p).isBuy v.orders).updateBestPrices.bumpSequence }) := by
  have hne : ¬ (u.orders p).remainingQuantity = 0 := fun he => by
    rw [← units_eq_zero_iff] at he
    omega
  exact if_neg hne

theorem match_spec (hl : Ladder u.book u.orders) (hp : Unringed u.book p)
    (hq : 0 < units u.orders p) (h : OrderBook.match (some p) u = some (r, t)) :
    ∃ v fs, Processed p (u.orders p).isBuy u v t fs ∧
      r = if (t.orders p).remainingQuantity > 0 then some p else none := by
  rw [match_eq hq, Option.map_eq_some_iff] at h
  obtain ⟨v, hv, he⟩ := h
  obtain ⟨fs, hc, hset⟩ := matchLoop_sound hl hp hv
  obtain ⟨rfl, rfl⟩ := Prod.mk.inj he
  exact ⟨v, fs, ⟨⟨_, hv⟩, hc, hset, rfl, rfl, rfl⟩, rfl⟩

theorem match_total (hl : Ladder u.book u.orders) (hp : Unringed u.book p)
    (hd : Drainable p (u.orders p).isBuy u) : ∃ r t, OrderBook.match (some p) u = some (r, t) := by
  rcases Nat.eq_zero_or_pos (units u.orders p) with hz | hq
  · exact ⟨_, _, match_nothing hz⟩
  · obtain ⟨v, hv⟩ := matchLoop_total hl hp hd
    exact ⟨_, _, by rw [match_eq hq, hv]; rfl⟩

namespace Crossed

variable (h : Crossed p s u v fs)
include h

theorem static {g : Order → α} (hg : ∀ o q, g (o.trade q) = g o) (q : OrderPtr) :
    g (v.orders q) = g (u.orders q) := by
  rw [h.orders]
  exact replay_static hg p u.orders fs q

theorem ring_sub (hm : m ∈ v.book.levels s') :
    m ∈ u.book.levels s' ∧ ∀ q ∈ (v.book.level m).ring, q ∈ (u.book.level m).ring := by
  by_cases hs : s' = s
  · subst hs
    rw [h.own] at hm
    refine ⟨hm, fun q hq => ?_⟩
    rwa [h.level_own m hm] at hq
  · rw [Bool.eq_not_of_ne hs] at hm ⊢
    obtain ⟨ls, hls⟩ := h.gone
    obtain ⟨ps, hps⟩ := (h.shrunk m hm).gone
    refine ⟨hls ▸ List.mem_append_right _ hm, fun q hq => ?_⟩
    rw [hps]
    exact List.mem_append_right _ hq

theorem own_order (hl : Ladder u.book u.orders) (hp : Unringed u.book p)
    (hm : m ∈ u.book.levels s) (hq : q ∈ (u.book.level m).ring) : v.orders q = u.orders q := by
  rw [h.orders]
  refine replay_other (fun he => hp s m hm (he ▸ hq)) fun f hf he => ?_
  obtain ⟨l, hlm, hfl, -⟩ := h.makers f hf
  have hside := (hl.resting s m hm q hq).1
  rw [← he, (hl.resting _ l hlm _ hfl).1] at hside
  exact Bool.not_ne_self s hside

theorem own_queue (hl : Ladder u.book u.orders) (hp : Unringed u.book p) :
    v.book.sideQueue v.orders s = u.book.sideQueue u.orders s := by
  rw [sideQueue, sideQueue, h.own]
  apply queueOf_congr
  intro m hm
  rw [h.level_own m hm]
  exact liveQueue_congr fun q hq => same_live (h.own_order hl hp hm hq)

end Crossed

namespace Processed

variable (h : Processed p s u v t fs)
include h

theorem drawn : consume (within u.orders s (u.orders p).price) (units u.orders p)
    (u.book.sideQueue u.orders (!s)) =
      ⟨fs.map Fill.pair, v.book.sideQueue v.orders (!s), units v.orders p⟩ := by
  have hstop : consume (within u.orders s (u.orders p).price) (units v.orders p)
      (v.book.sideQueue v.orders (!s)) =
      ⟨[], v.book.sideQueue v.orders (!s), units v.orders p⟩ := by
    rcases h.settled with hz | hout
    · rw [hz, consume_zero]
    · apply consume_none
      intro x hx
      obtain ⟨m, hm, hx⟩ := mem_queueOf.1 hx
      rw [within, ← h.crossed.static (g := Order.price) (fun _ _ => rfl),
        (h.crossed.ladder.resting _ m hm _ (mem_liveQueue.1 hx).1).2, ← h.crossed.limit_eq,
        hout m hm]
      rfl
  rw [h.crossed.drawn, hstop, List.append_nil]

theorem outside (hq : 0 < units v.orders p) : ∀ m ∈ v.book.levels (!s),
    ahead s (v.book.priceAt m) (v.orders p).price = true :=
  h.settled.resolve_left hq.ne'

theorem final : (units v.orders p = 0 ∧ v.book.rest p s v.orders = v.book) ∨
    (0 < units v.orders p ∧
      ∃ l lvl A B, Rested p s v.orders v.book (v.book.rest p s v.orders) l lvl A B) := by
  rcases Nat.eq_zero_or_pos (units v.orders p) with hz | hq
  · exact .inl ⟨hz, rest_nothing hz⟩
  · exact .inr ⟨hq, h.crossed.ladder.shelves.rested (fun m hm => ahead_ne (h.outside hq m hm)) hq⟩

end Processed

end Velox.OrderBook
