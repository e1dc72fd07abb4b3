import Velox.BookSession

namespace Velox.Session
set_option autoImplicit true

open Greedy OrderBook PriceLevel

variable {s : Session} {p : OrderPtr} {side : Bool} {t u : BookRun}

/-- The exits of the loop of `match`: the order is filled, the other side is empty, or its best level
is outside the limit. -/
def LoopExit (p : OrderPtr) (side : Bool) (t : BookRun) : Prop :=
  (t.orders p).remainingQuantity = 0 ∨ t.book.levels (!side) = [] ∨
    ∃ l ls, t.book.levels (!side) = l :: ls ∧
      ahead side (t.book.level l).price (t.orders p).price = true

theorem loopExit_of_settled (h : Settled p side t) : LoopExit p side t := by
  rcases h with hz | hout
  · exact .inl (units_eq_zero_iff.1 hz)
  · cases hls : t.book.levels (!side) with
    | nil => exact .inr (.inl hls)
    | cons l ls => exact .inr (.inr ⟨l, ls, hls, hout l (hls ▸ List.mem_cons_self)⟩)

theorem loop_ends_iff (hl : Ladder u.book u.orders) (hp : Unringed u.book p) :
    (∃ n t, Loop.run (matchBody p side) n u = some t) ↔ Drainable p side u := by
  constructor
  · rintro ⟨n, t, hrun⟩ pre l post hls hin hlost
    by_contra hlt
    rw [matchLoop_diverges (.refl hl hp) hls hin hlost (Nat.lt_of_not_le hlt) n] at hrun
    cases hrun
  · intro hd
    exact ⟨_, matchLoop_total hl hp hd⟩

/-- After any run the loop of `match` ends for a further order, through one of its exits, exactly when
no level within the limit whose count has outgrown its ring is asked for more than the live orders
up to it can supply. -/
theorem match_loop_ends_iff {symbol : List UInt8} (h : Runs Step (start symbol) ts s)
    (hp : p ∉ s.known) (o : Order) :
    (∃ n t, Loop.run (matchBody p o.isBuy) n (s.call p o) = some t ∧ LoopExit p o.isBuy t) ↔
      Drainable p o.isBuy (s.call p o) := by
  have hk := kept_of_runs h
  have hl := (hk.write hp o).ladder
  have hu : Unringed (s.call p o).book p := hk.unringed hp
  rw [← loop_ends_iff hl hu]
  constructor
  · rintro ⟨n, t, hrun, -⟩
    exact ⟨n, t, hrun⟩
  · rintro ⟨n, t, hrun⟩
    obtain ⟨fs, -, hset⟩ := matchLoop_sound hl hu hrun
    exact ⟨n, t, hrun, loopExit_of_settled hset⟩

theorem match_loop_ends_two_levels : ∃ ts s, Runs Step (start []) ts s ∧
    ∃ n t, Loop.run (matchBody 3 true) n (s.call 3 (.limit 3 .BUY 101 5)) = some t ∧
      LoopExit 3 true t := by
  obtain ⟨ts, s, hr, hok⟩ := exists_roomy_run []
    [.match 1 (.limit 1 .SELL 101 5), .match 2 (.limit 2 .SELL 100 4)]
    (fun _ s => 3 ∉ s.known) (by decide +kernel)
  have hsteps := hr.mono (Q := Step) fun _ _ _ h => h.1
  exact ⟨ts, s, hsteps, (match_loop_ends_iff hsteps (of_decide_eq_true hok) (.limit 3 .BUY 101 5)).2
    ((intact_of_runs hr).drainable 3 _ _)⟩

/-- 128 resting orders at one price leave the ring's head on its tail: the next order that wants to
trade there is never answered. -/
theorem match_loop_diverges_full_ring : ∃ ts s p o, Runs Step (start []) ts s ∧ p ∉ s.known ∧
    (∀ q ∈ s.known, (s.orders q).orderId ≠ o.orderId) ∧ o.Fresh ∧
    ∀ n, Loop.run (matchBody p o.isBuy) n (s.call p o) = none := by
  let o : Order := .limit 128 .BUY 100 1
  obtain ⟨ts, s, hr, hok⟩ := exists_run []
    ((List.range 128).map fun i => .match i (.limit (UInt64.ofNat i) .SELL 100 1))
    (fun _ s => 128 ∉ s.known ∧ (∀ q ∈ s.known, (s.orders q).orderId ≠ o.orderId) ∧
      s.book.levels false = [0] ∧ s.book.priceAt 0 = 100 ∧ (s.book.level 0).mSize = 128 ∧
      (s.book.level 0).used = 0 ∧ s.book.queueOf (s.write 128 o) [0] = []) (by decide +kernel)
  obtain ⟨hp, hid, hls, hprice, hsize, hused, hqueue⟩ := of_decide_eq_true hok
  have hk := kept_of_runs hr
  refine ⟨ts, s, 128, o, hr, hp, hid, Order.fresh_limit _ _ _ _, fun n => ?_⟩
  have hself : (s.call 128 o).orders 128 = o := write_self s 128 o
  refine matchLoop_diverges (.refl (hk.write hp o).ladder (hk.unringed hp))
    (show s.book.levels false = [] ++ 0 :: [] from hls) ?_ ?_ ?_ n
  · rw [hself, show (s.call 128 o).book.priceAt 0 = 100 from hprice]
    rfl
  · change (s.book.level 0).mSize ≠ (s.book.level 0).used
    rw [hsize, hused]
    decide
  · rw [units, hself]
    change total (s.book.queueOf (s.write 128 o) [0]) < 1
    rw [hqueue]
    exact Nat.one_pos

end Velox.Session
