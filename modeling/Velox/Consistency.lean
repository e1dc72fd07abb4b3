import Velox.BookSession

namespace Velox.Session
set_option autoImplicit true

open Greedy OrderBook PriceLevel

variable {s : Session} {symbol : List UInt8} {orders : OrderHeap} {b : OrderBook}

/-- Two sides, a partial fill, and a cancel behind the head of its ring. -/
def sampleCalls : List Call :=
  [.match 1 (.limit 1 .SELL 101 5), .match 2 (.limit 2 .SELL 101 4), .match 3 (.limit 3 .BUY 99 2),
    .cancel 2, .match 4 (.limit 4 .BUY 101 3)]

/-- The two vectors, the price map and the rings stay in step, and the book never crosses or locks,
whatever the rings hold. -/
theorem structures_in_step (h : Runs Step (start symbol) ts s) :
    (s.book.mBidLevels.map s.book.priceAt).Pairwise (· > ·) ∧
    (s.book.mAskLevels.map s.book.priceAt).Pairwise (· < ·) ∧
    (∀ x l, s.book.mPriceToLevel x = some l ↔
      (l ∈ s.book.mBidLevels ∨ l ∈ s.book.mAskLevels) ∧ s.book.priceAt l = x) ∧
    (∀ l ∈ s.book.mBidLevels, ∀ m ∈ s.book.mAskLevels, s.book.priceAt l ≠ s.book.priceAt m) ∧
    (∀ l, s.book.store l ≠ none → ∀ p ∈ (s.book.level l).ring,
      (s.orders p).price = s.book.priceAt l ∧
      if (s.orders p).isBuy then l ∈ s.book.mBidLevels else l ∈ s.book.mAskLevels) ∧
    ∀ l ∈ s.book.mBidLevels, ∀ m ∈ s.book.mAskLevels, s.book.priceAt l < s.book.priceAt m := by
  have hk := (kept_of_runs h).ladder
  have hcross : ∀ l ∈ s.book.mBidLevels, ∀ m ∈ s.book.mAskLevels,
      s.book.priceAt l < s.book.priceAt m := fun l hl m hm =>
    of_decide_eq_true (hk.uncrossed true l hl m hm)
  refine ⟨?_, ?_, fun x l => ?_, fun l hl m hm he => ?_, fun l hstore p hp => ?_, hcross⟩
  · rw [List.pairwise_map]
    exact (hk.sorted true).imp fun hlm => of_decide_eq_true hlm
  · rw [List.pairwise_map]
    exact (hk.sorted false).imp fun hlm => of_decide_eq_true hlm
  · rw [hk.mapped, Bool.exists_bool, Or.comm]
    rfl
  · have := hcross l hl m hm
    rw [he] at this
    exact Int64.lt_irrefl this
  · obtain ⟨side, hl⟩ := hk.stored l hstore
    obtain ⟨hside, hprice⟩ := hk.resting side l hl p hp
    refine ⟨hprice, ?_⟩
    rw [hside]
    cases side <;> exact hl

theorem structures_in_step_sample : ∃ ts s, Runs Step (start []) ts s ∧
    s.book.mBidLevels.map s.book.priceAt = [99] ∧ s.book.mAskLevels.map s.book.priceAt = [101] ∧
    (s.book.mBidLevels.map s.book.priceAt).Pairwise (· > ·) := by
  obtain ⟨ts, s, hr, hok⟩ := exists_run [] sampleCalls
    (fun _ s => s.book.mBidLevels.map s.book.priceAt = [99] ∧
      s.book.mAskLevels.map s.book.priceAt = [101]) (by decide +kernel)
  obtain ⟨hbid, hask⟩ := of_decide_eq_true hok
  exact ⟨ts, s, hr, hbid, hask, (structures_in_step hr).1⟩

theorem ofNat_total_liveQueue (h : ∀ p ∈ ps, (orders p).isActive = true → 0 < units orders p) :
    UInt32.ofNat (total (liveQueue orders ps)) =
      ((ps.filter fun p => (orders p).isActive).map fun p => (orders p).remainingQuantity).sum := by
  have hlive : ps.filter (isLive orders) = ps.filter fun p => (orders p).isActive := by
    apply List.filter_congr
    intro p hp
    cases ha : (orders p).isActive with
    | false => rw [isLive, ha, Bool.false_and]
    | true => exact isLive_iff.2 ⟨ha, h p hp ha⟩
  rw [liveQueue, hlive, total, List.map_map]
  generalize ps.filter (fun p => (orders p).isActive) = qs
  induction qs with
  | nil => rfl
  | cons q qs ih =>
    rw [List.map_cons, List.map_cons, List.sum_cons, List.sum_cons, UInt32.ofNat_add, ih]
    congr 1
    exact UInt32.ofNat_toNat

theorem ofNat_total_queueOf {ls : List LevelPtr} (h : ∀ l ∈ ls, (b.level l).Exact orders) :
    UInt32.ofNat (total (b.queueOf orders ls)) =
      (ls.map fun l => (b.level l).totalQuantity).sum := by
  induction ls with
  | nil => rfl
  | cons l ls ih =>
    rw [queueOf_cons, total_append, UInt32.ofNat_add, ih fun m hm => h m (List.mem_cons_of_mem l hm),
      ← h l List.mem_cons_self]
    rfl

theorem foldl_totalQuantity (ls : List LevelPtr) (d : UInt32) :
    ls.foldl (fun d l => d + (b.level l).totalQuantity) d =
      d + (ls.map fun l => (b.level l).totalQuantity).sum := by
  induction ls generalizing d with
  | nil => exact (UInt32.add_zero d).symm
  | cons l ls ih => rw [List.foldl_cons, ih, List.map_cons, List.sum_cons, UInt32.add_assoc]

/-- The counts kept step by step are those that a recomputation would give. -/
theorem counts_recomputed (h : Runs RoomyStep (start symbol) ts s) :
    (∀ l, l ∈ s.book.mBidLevels ∨ l ∈ s.book.mAskLevels →
      (s.book.level l).mSize =
        ((s.book.level l).mTail.val + maxOrders - (s.book.level l).mHead.val) % maxOrders ∧
      0 < (s.book.level l).mSize ∧
      (s.book.level l).mTotalQuantity =
        (((s.book.level l).ring.filter fun p => (s.orders p).isActive).map fun p =>
          (s.orders p).remainingQuantity).sum) ∧
    s.book.mBidDepth = (s.book.mBidLevels.map fun l => (s.book.level l).totalQuantity).sum ∧
    s.book.mAskDepth = (s.book.mAskLevels.map fun l => (s.book.level l).totalQuantity).sum ∧
    s.book.updateDepth = s.book := by
  have hi := intact_of_runs h
  have hk := hi.kept.ladder
  have hdepth : ∀ side, s.book.depth side =
      ((s.book.levels side).map fun l => (s.book.level l).totalQuantity).sum := fun side => by
    rw [hi.depth, sideQueue, ofNat_total_queueOf (hi.exact side)]
  refine ⟨fun l hl => ?_, hdepth true, hdepth false, ?_⟩
  · obtain ⟨side, hl⟩ : ∃ side, l ∈ s.book.levels side := hl.elim (⟨true, ·⟩) (⟨false, ·⟩)
    refine ⟨?_, Nat.pos_of_ne_zero (hk.nonempty side l hl), ?_⟩
    · rw [hi.counted side l hl, used, Ring.used, Fin.val_sub]
      congr 1
      omega
    · rw [hi.exact side l hl, ofNat_total_liveQueue (hk.unfilled side l hl)]
  · have hsum : ∀ side, (s.book.levels side).foldl
        (fun d l => d + (s.book.level l).totalQuantity) 0 = s.book.depth side := fun side => by
      rw [foldl_totalQuantity, UInt32.zero_add, hdepth]
    have hbid : s.book.mBidLevels.foldl _ 0 = s.book.mBidDepth := hsum true
    have hask : s.book.mAskLevels.foldl _ 0 = s.book.mAskDepth := hsum false
    rw [updateDepth, hbid, hask]

theorem counts_recomputed_sample : ∃ ts s, Runs RoomyStep (start []) ts s ∧
    s.book.mBidDepth = 2 ∧ s.book.mAskDepth = 2 ∧ s.book.updateDepth = s.book := by
  obtain ⟨ts, s, hr, hok⟩ := exists_roomy_run [] sampleCalls
    (fun _ s => s.book.mBidDepth = 2 ∧ s.book.mAskDepth = 2) (by decide +kernel)
  obtain ⟨hbid, hask⟩ := of_decide_eq_true hok
  exact ⟨ts, s, hr, hbid, hask, (counts_recomputed hr).2.2.2⟩

end Velox.Session
