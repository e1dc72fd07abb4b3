import Velox.BookSession

namespace Velox
set_option autoImplicit true

open Greedy OrderBook PriceLevel

variable {orders : OrderHeap} {b : OrderBook} {known : List OrderPtr} {p : OrderPtr} {s s' : Bool}
  {t u v : BookRun} {fs gs : List Fill} {l m : LevelPtr} {ls : List LevelPtr} {lvl : PriceLevel}
  {id : UInt64} {loc : OrderLocation}

theorem total_liveQueue_pos {ps : List OrderPtr} (h : liveQueue orders ps ≠ []) :
    0 < total (liveQueue orders ps) := by
  obtain ⟨x, xs, he⟩ := List.exists_cons_of_ne_nil h
  have hx : x ∈ liveQueue orders ps := he ▸ List.mem_cons_self
  obtain ⟨-, hlive, hu⟩ := mem_liveQueue.1 hx
  have hpos := (isLive_iff.1 hlive).2
  rw [he, total_cons]
  omega

namespace OrderBook

/-- Every level of the book has a live order. -/
def Lively (b : OrderBook) (orders : OrderHeap) : Prop :=
  ∀ s, ∀ l ∈ b.levels s, liveQueue orders (b.level l).ring ≠ []

/-- The incoming order does not fill up exactly at a level that ends in cancelled orders. -/
def CleanMatch (p : OrderPtr) (s : Bool) (t : BookRun) : Prop :=
  ∀ pre l post, t.book.levels (!s) = pre ++ l :: post →
    ahead s (t.book.priceAt l) (t.orders p).price = false →
    units t.orders p = total (t.book.queueOf t.orders (pre ++ [l])) →
    (t.book.level l).ring.getLast?.all (isLive t.orders) = true

instance (p : OrderPtr) (s : Bool) (t : BookRun) : Decidable (CleanMatch p s t) :=
  decidable_of_iff (∀ i : Fin (t.book.levels (!s)).length,
      ahead s (t.book.priceAt (t.book.levels (!s))[i]) (t.orders p).price = false →
      units t.orders p =
        total (t.book.queueOf t.orders ((t.book.levels (!s)).take i ++ [(t.book.levels (!s))[i]])) →
      (t.book.level (t.book.levels (!s))[i]).ring.getLast?.all (isLive t.orders) = true) <| by
    constructor
    · intro h pre l post hls
      have hi : pre.length < (t.book.levels (!s)).length := by
        rw [hls, List.length_append, List.length_cons]
        omega
      have hl : (t.book.levels (!s))[pre.length] = l := by
        simp only [hls, List.getElem_append_right (Nat.le_refl _), Nat.sub_self, List.getElem_cons_zero]
      have hpre : (t.book.levels (!s)).take pre.length = pre := by
        rw [hls, List.take_left]
      have := h ⟨pre.length, hi⟩
      simpa only [Fin.getElem_fin, hl, hpre] using this
    · intro h i
      exact h _ _ ((t.book.levels (!s)).drop (i + 1)) (by
        rw [Fin.getElem_fin, List.getElem_cons_drop, List.take_append_drop])

section Turn

variable (ht : Turn p s t v l ls lvl gs)
include ht

theorem Turn.gone (hcounted : (t.book.level l).mSize = (t.book.level l).used)
    (hring : lvl.ring = []) : v.book.levels (!s) = ls := by
  have hc := ht.counted
  have hused : lvl.used = 0 := by
    rw [show lvl.used = lvl.ring.length from ht.matched.wf.used_eq_length, hring]
    rfl
  rw [ht.levels_next, if_pos (by omega)]

/-- A turn that leaves no live order in its level has drained it, unless the level ends in cancelled
orders and had just as much as was wanted. -/
theorem Turn.ring_nil (hc : CleanMatch p s t)
    (hdead : liveQueue (replay p t.orders gs) lvl.ring = []) : lvl.ring = [] := by
  rcases ht.exit with hz | hring
  · by_contra hne
    have hopen : volume gs + total (liveQueue (replay p t.orders gs) lvl.ring) =
        total (liveQueue t.orders (t.book.level l).ring) := ht.matched.open_left
    have hunits := ht.matched.fair.units_incoming
    obtain ⟨ps, hps⟩ := ht.matched.gone
    obtain ⟨c, hlast⟩ := Option.ne_none_iff_exists'.1 (mt List.getLast?_eq_none_iff.1 hne)
    have hmem : c ∈ lvl.ring := List.mem_of_getLast? hlast
    have hlast' : (t.book.level l).ring.getLast? = some c := by
      rw [show (t.book.level l).ring = ps ++ lvl.ring from hps, List.getLast?_append, hlast]
      rfl
    have hc' : isLive t.orders c = true := by
      have hexact : units t.orders p = total (t.book.queueOf t.orders ([] ++ [l])) := by
        rw [hdead, total_nil] at hopen
        simp only [List.nil_append, queueOf_cons, queueOf_nil, List.append_nil]
        change units (replay p t.orders gs) p + volume gs = units t.orders p at hunits
        omega
      have := hc [] l ls ht.levels ht.inside hexact
      rwa [hlast', Option.all_some] at this
    have hlive : isLive (replay p t.orders gs) c = true := (ht.matched.keeps c hmem).trans hc'
    have hq : (c, units (replay p t.orders gs) c) ∈ liveQueue (replay p t.orders gs) lvl.ring :=
      mem_liveQueue.2 ⟨hmem, hlive, rfl⟩
    rw [hdead] at hq
    cases hq
  · exact hring

theorem Crossed.turn_lively (h : Crossed p s u t fs)
    (hcounted : (t.book.level l).mSize = (t.book.level l).used)
    (hl : ∀ m ∈ t.book.levels (!s), liveQueue t.orders (t.book.level m).ring ≠ [])
    (hc : CleanMatch p s t) :
    (∀ m ∈ v.book.levels (!s), liveQueue v.orders (v.book.level m).ring ≠ []) ∧
      CleanMatch p s v := by
  have hold : ∀ m ∈ ls, liveQueue v.orders (v.book.level m).ring ≠ [] := fun m hm => by
    rw [(h.turn_level ht hm).2]
    exact hl m (ht.levels ▸ List.mem_cons_of_mem l hm)
  have hlively : ∀ m ∈ v.book.levels (!s), liveQueue v.orders (v.book.level m).ring ≠ [] := by
    intro m hm
    by_cases hz : lvl.mSize = 0
    · rw [ht.levels_next, if_pos hz] at hm
      exact hold m hm
    · rw [ht.levels_next, if_neg hz] at hm
      rcases List.mem_cons.1 hm with rfl | hm
      · intro hdead
        rw [ht.next] at hdead
        change liveQueue (replay p t.orders gs) ((t.book.putLevel (!s) m lvl _).level m).ring = [] at hdead
        rw [level_putLevel hz] at hdead
        have hgone := ht.gone hcounted (ht.ring_nil hc hdead)
        rw [ht.levels_next, if_neg hz] at hgone
        exact List.cons_ne_self m ls hgone
      · exact hold m hm
  refine ⟨hlively, fun pre m post hsplit hin hunits => ?_⟩
  have hmem : m ∈ v.book.levels (!s) := hsplit ▸ List.mem_append_right _ List.mem_cons_self
  have hpos : 0 < units v.orders p := by
    have := total_liveQueue_pos (hlively m hmem)
    rw [hunits, queueOf_append, total_append, queueOf_cons, total_append]
    omega
  have hls := ht.gone hcounted (ht.drained hpos)
  obtain ⟨hm, hq, hqueue⟩ := h.turn_behind ht (hls.symm.trans hsplit)
  have hu := ht.units_eq
  rw [hm] at hq ⊢
  have hlive := hc (l :: pre) m post (by rw [ht.levels, ← hls, hsplit]; rfl)
    (by rw [priceAt, ← hm, ← ht.limit_eq]; exact hin)
    (by rw [List.cons_append, queueOf_cons, total_append, ← hqueue]; omega)
  cases hlast : (t.book.level m).ring.getLast? with
  | none => rfl
  | some c =>
    rw [hlast, Option.all_some] at hlive
    have hc : (c, units t.orders c) ∈ liveQueue t.orders (t.book.level m).ring :=
      mem_liveQueue.2 ⟨List.mem_of_getLast? hlast, hlive, rfl⟩
    exact (mem_liveQueue.1 (hq ▸ hc)).2.1

end Turn

theorem matchLoop_lively (hl : Ladder u.book u.orders) (hp : Unringed u.book p)
    (hcounted : ∀ m ∈ u.book.levels (!s), (u.book.level m).mSize = (u.book.level m).used)
    (hlive : ∀ m ∈ u.book.levels (!s), liveQueue u.orders (u.book.level m).ring ≠ [])
    (hc : CleanMatch p s u) {n : ℕ} (h : Loop.run (matchBody p s) n u = some t) :
    ∀ m ∈ t.book.levels (!s), liveQueue t.orders (t.book.level m).ring ≠ [] := by
  refine Loop.run_sound (matchBody p s) (I := fun t => (∃ fs, Crossed p s u t fs) ∧ CleanMatch p s t ∧
      ∀ m ∈ t.book.levels (!s), liveQueue t.orders (t.book.level m).ring ≠ [])
    (P := fun t => ∀ m ∈ t.book.levels (!s), liveQueue t.orders (t.book.level m).ring ≠ [])
    ?_ ⟨⟨[], .refl hl hp⟩, hc, hlive⟩ h
  rintro v ⟨⟨gs, hv⟩, hcv, hlv⟩ r hr
  rcases hv.body with ⟨hb, -⟩ | ⟨w, l, ls, lvl, hs, hb, hturn⟩
  · rw [hb] at hr
    cases hr
    exact ⟨fun w hw => by cases hw; exact hlv, fun w hw => by cases hw⟩
  · rw [hb] at hr
    cases hr
    have hmem : l ∈ v.book.levels (!s) := hturn.levels ▸ List.mem_cons_self
    have hc := (hv.shrunk l hmem).counted
    have hu := hcounted l (hv.ring_sub hmem).1
    obtain ⟨hlw, hcw⟩ := hv.turn_lively hturn (by omega) hlv hcv
    exact ⟨fun w hw => by (cases hw), fun w hw => by cases hw; exact ⟨⟨_, hv.of_turn hturn⟩, hcw, hlw⟩⟩

theorem Processed.lively (hpr : Processed p s u v t fs) (h : Intact u.book u.orders known)
    (hp : p ∉ known) (hact : (u.orders p).isActive = true) (hroom : Roomy t.book)
    (hlive : Lively u.book u.orders) (hc : CleanMatch p s u) : Lively t.book t.orders := by
  obtain ⟨n, hloop⟩ := hpr.loop
  have hv : Lively v.book v.orders := by
    intro s' m hm
    by_cases hs : s' = s
    · subst hs
      rw [hpr.crossed.own] at hm
      rw [hpr.crossed.level_own m hm, liveQueue_congr fun q hq =>
        same_live (hpr.crossed.own_order h.ladder (h.unringed hp) hm hq)]
      exact hlive s' m hm
    · rw [Bool.eq_not_of_ne hs] at hm
      exact matchLoop_lively h.ladder (h.unringed hp) (h.counted (!s)) (hlive (!s)) hc hloop m hm
  rw [hpr.book, hpr.orders]
  intro s' m hm
  change m ∈ (v.book.rest p s v.orders).levels s' at hm
  change liveQueue v.orders ((v.book.rest p s v.orders).level m).ring ≠ []
  rcases hpr.final with ⟨-, he⟩ | ⟨hq, l, lvl, A, B, hr⟩
  · rw [he] at hm ⊢
    exact hv s' m hm
  · rcases hr.mem hpr.crossed.ladder.shelves hm with ⟨rfl, rfl⟩ | ⟨hne, hm⟩
    · have hlive : isLive v.orders p = true :=
        isLive_iff.2 ⟨by rw [hpr.crossed.static (g := Order.isActive) fun _ _ => rfl, hact], hq⟩
      have hne : (v.orders p).remainingQuantity ≠ 0 := fun he => by
        rw [← units_eq_zero_iff] at he
        omega
      rw [hr.placed.level_self, ring_addOrder hne (hpr.room hroom hq hr), liveQueue_append,
        liveQueue_cons_live hlive]
      exact List.append_ne_nil_of_right_ne_nil _ (List.cons_ne_nil _ _)
    · rw [hr.placed.level_other hne]
      exact hv s' m hm

/-- The order to cancel is at the head of its ring or shares its level with another live order. -/
def CleanCancel (id : UInt64) (orders : OrderHeap) (b : OrderBook) : Prop :=
  ∀ s, ∀ l ∈ b.levels s, ∀ p ∈ (b.level l).ring, isLive orders p = true →
    (orders p).orderId = id → (b.level l).ring.head? = some p ∨
      ∃ q ∈ (b.level l).ring, q ≠ p ∧ isLive orders q = true

instance (id : UInt64) (orders : OrderHeap) (b : OrderBook) : Decidable (CleanCancel id orders b) :=
  inferInstanceAs (Decidable (∀ s, ∀ l ∈ b.levels s, ∀ p ∈ (b.level l).ring, _ → _ → _))

theorem Intact.cancel_lively (h : Intact b orders known) (hlive : Lively b orders)
    (hc : CleanCancel id orders b) :
    Lively (b.cancelOrder id orders).2.1 (b.cancelOrder id orders).2.2 := by
  rcases h.toKept.stocked.cancel_cases id with
    ⟨-, he⟩ | ⟨loc, -, -, he⟩ | ⟨loc, l, s, lvl, hi, hm, hl, hcut, he⟩
  · rw [he]
    exact hlive
  · rw [he]
    exact hlive
  · rw [he]
    intro s' m hmem
    obtain ⟨hmb, hz⟩ := (h.toKept.stocked.mem_cut hi hl hcut).1 hmem
    change liveQueue (cancelIn orders loc.orderPtr)
      ((b.putLevel loc.isBid l lvl _).level m).ring ≠ []
    by_cases hml : m = l
    · subst hml
      rw [level_putLevel (hz rfl)]
      rcases h.cut_mem hi hm with ⟨hring, hlivep⟩ | hzero
      · rcases hc s' m hmb _ hring hlivep (h.indexed id loc hi).2.1 with hhead | ⟨q, hq, hne, hql⟩
        · have hsize := hz rfl
          have hcounted := hcut.counted
          have hcm := h.counted s' m hmb
          have hlen := hcut.swept.wf.used_eq_length
          obtain ⟨c, cs, hcs⟩ := List.exists_cons_of_ne_nil (l := lvl.ring) fun hn => by
            rw [hn, List.length_nil] at hlen
            omega
          rw [hcs, liveQueue_cons_live (hcut.front hhead c (by rw [hcs]; rfl))]
          exact List.cons_ne_nil _ _
        · have hmem : (q, units orders q) ∈ liveQueue orders (b.level m).ring :=
            mem_liveQueue.2 ⟨hq, hql, rfl⟩
          rw [hcut.liveQueue]
          exact List.ne_nil_of_mem (List.mem_filter.2 ⟨hmem, decide_eq_true hne⟩)
      · rw [hcut.liveQueue, filter_ne_self]
        · exact hlive s' m hmb
        · rw [keys_liveQueue, List.mem_filter]
          exact fun hx => absurd hzero (isLive_iff.1 hx.2).2.ne'
    · rw [level_putLevel_of_ne hml, liveQueue_cancelIn, filter_ne_self]
      · exact hlive s' m hmb
      · rw [keys_liveQueue, List.mem_filter]
        rintro ⟨hring, hlive⟩
        rcases h.cut_mem hi hm with ⟨hring', -⟩ | hzero
        · exact hml (h.ladder.ring_unique hmb hl hring hring')
        · exact absurd hzero (isLive_iff.1 hlive).2.ne'

end OrderBook

namespace Session

variable {s t : Session} {e : BookEvent} {symbol : List UInt8}

/-- The live resting orders of a side: handed to `match`, active, and with something left to fill. -/
def liveOrders (s : Session) (side : Bool) : List OrderPtr :=
  s.known.filter fun p => isLive s.orders p && (s.orders p).isBuy == side

/-- The quoted prices are those of the best live orders. -/
def Quoted (s : Session) : Prop :=
  (if s.liveOrders true = [] then s.book.mBestBid = 0 else
    (∃ p ∈ s.liveOrders true, (s.orders p).price = s.book.mBestBid) ∧
      ∀ p ∈ s.liveOrders true, (s.orders p).price ≤ s.book.mBestBid) ∧
  if s.liveOrders false = [] then s.book.mBestAsk = Int64.maxValue else
    (∃ p ∈ s.liveOrders false, (s.orders p).price = s.book.mBestAsk) ∧
      ∀ p ∈ s.liveOrders false, s.book.mBestAsk ≤ (s.orders p).price

instance (s : Session) : Decidable s.Quoted := inferInstanceAs (Decidable (_ ∧ _))

/-- The step does not reach the defect: it leaves no level with cancelled orders only. -/
def Clean (s : Session) : BookEvent → Prop
  | .match p o _ _ => CleanMatch p o.isBuy (s.call p o)
  | .cancel id _ => CleanCancel id s.orders s.book

instance (s : Session) : (e : BookEvent) → Decidable (s.Clean e)
  | .match p o _ _ => inferInstanceAs (Decidable (CleanMatch p o.isBuy (s.call p o)))
  | .cancel id _ => inferInstanceAs (Decidable (CleanCancel id s.orders s.book))

theorem Intact.mem_liveOrders (h : s.Intact) {side : Bool} {p : OrderPtr} :
    p ∈ s.liveOrders side ↔
      ∃ l ∈ s.book.levels side, p ∈ (s.book.level l).ring ∧ isLive s.orders p = true := by
  rw [liveOrders, List.mem_filter, Bool.and_eq_true, beq_iff_eq]
  constructor
  · rintro ⟨hk, hlive, hside⟩
    obtain ⟨l, hl, hx⟩ := mem_sideQueue.1 (hside ▸ h.queued p hk hlive)
    exact ⟨l, hl, (mem_liveQueue.1 hx).1, hlive⟩
  · rintro ⟨l, hl, hring, hlive⟩
    exact ⟨h.ringed side l hl p hring, hlive, (h.ladder.resting side l hl p hring).1⟩

theorem Intact.front_best (h : s.Intact) (hlive : s.book.Lively s.orders) (side : Bool) :
    (s.book.levels side = [] ∧ s.liveOrders side = []) ∨
    ∃ l ls, s.book.levels side = l :: ls ∧
      (∃ p ∈ s.liveOrders side, (s.orders p).price = s.book.priceAt l) ∧
      ∀ p ∈ s.liveOrders side, ahead side (s.orders p).price (s.book.priceAt l) = false := by
  cases hls : s.book.levels side with
  | nil =>
    refine .inl ⟨rfl, List.eq_nil_iff_forall_not_mem.2 fun p hp => ?_⟩
    obtain ⟨l, hl, -⟩ := h.mem_liveOrders.1 hp
    rw [hls] at hl
    cases hl
  | cons l ls =>
    have hl : l ∈ s.book.levels side := hls ▸ List.mem_cons_self
    refine .inr ⟨l, ls, rfl, ?_, fun p hp => ?_⟩
    · obtain ⟨x, hx⟩ := List.exists_mem_of_ne_nil _ (hlive side l hl)
      obtain ⟨hring, hlivex, -⟩ := mem_liveQueue.1 hx
      exact ⟨x.1, h.mem_liveOrders.2 ⟨l, hl, hring, hlivex⟩, (h.ladder.resting side l hl _ hring).2⟩
    · obtain ⟨m, hm, hring, -⟩ := h.mem_liveOrders.1 hp
      rw [(h.ladder.resting side m hm p hring).2]
      rw [hls] at hm
      rcases List.mem_cons.1 hm with rfl | hm
      · exact ahead_irrefl side _
      · have hsorted := h.ladder.sorted side
        rw [hls] at hsorted
        exact ahead_asymm ((List.pairwise_cons.1 hsorted).1 m hm)

theorem Intact.quoted (h : s.Intact) (hlive : s.book.Lively s.orders) : s.Quoted := by
  have hbest := h.best
  have hbid : s.book.updateBestPrices.mBestBid = s.book.mBestBid := by rw [hbest]
  have hask : s.book.updateBestPrices.mBestAsk = s.book.mBestAsk := by rw [hbest]
  constructor
  · rcases h.front_best hlive true with ⟨hls, hnone⟩ | ⟨l, ls, hls, ⟨p, hp, hx⟩, hall⟩
    · rw [if_pos hnone, ← hbid, updateBestPrices, show s.book.mBidLevels = [] from hls]
    · rw [updateBestPrices, show s.book.mBidLevels = l :: ls from hls] at hbid
      rw [if_neg (List.ne_nil_of_mem hp), ← hbid]
      exact ⟨⟨p, hp, hx⟩, fun q hq => Int64.not_lt.1 (of_decide_eq_false (hall q hq))⟩
  · rcases h.front_best hlive false with ⟨hls, hnone⟩ | ⟨l, ls, hls, ⟨p, hp, hx⟩, hall⟩
    · rw [if_pos hnone, ← hask, updateBestPrices, show s.book.mAskLevels = [] from hls]
    · rw [updateBestPrices, show s.book.mAskLevels = l :: ls from hls] at hask
      rw [if_neg (List.ne_nil_of_mem hp), ← hask]
      exact ⟨⟨p, hp, hx⟩, fun q hq => Int64.not_lt.1 (of_decide_eq_false (hall q hq))⟩

theorem RoomyStep.lively (hs : RoomyStep s e t) (h : s.Intact) (hlive : s.book.Lively s.orders)
    (hc : s.Clean e) : t.book.Lively t.orders := by
  obtain ⟨hs, hroom⟩ := hs
  cases hs with
  | @«match» p o _ u r hp hid ho hm =>
    have hself : (s.call p o).orders p = o := write_self s p o
    have hold : s.book.Lively (s.write p o) := fun side l hl => by
      rw [liveQueue_congr fun q hq =>
        same_live (write_known hp o (h.ringed side l hl q hq))]
      exact hlive side l hl
    rcases h.kept.match_cases hp hm with ⟨-, rfl, -⟩ | ⟨-, ⟨v, fs, hpr, -⟩, -⟩
    · exact hold
    · exact hpr.lively (h.write hp o) hp (by rw [hself, ho.active]) hroom hold hc
  | cancel id => exact OrderBook.Intact.cancel_lively h hlive hc

/-- In every run whose steps are all clean, the quoted prices are those of the best live orders. -/
theorem quoted_of_clean_runs (h : Runs RoomyStep (start symbol) ts s)
    (hc : ∀ x ∈ ts, x.1.Clean x.2.1) : s.Quoted := by
  have hi := h.invariant_of (I := fun s => s.Intact ∧ s.book.Lively s.orders)
    (C := fun x => x.1.Clean x.2.1) ⟨intact_start symbol, fun side l hl => by cases side <;> cases hl⟩
    (fun s e t hs hr hc => ⟨hr.intact hs.1, hr.lively hs.1 hs.2 hc⟩) hc
  exact hi.1.quoted hi.2

theorem quoted_of_clean_runs_cancel : ∃ ts s, Runs RoomyStep (start []) ts s ∧ s.Quoted ∧
    s.book.mBestBid = 0 ∧ s.book.mBestAsk = 101 := by
  let calls : List Call := [.match 1 (.limit 1 .SELL 101 5), .match 2 (.limit 2 .SELL 101 4),
    .match 3 (.limit 3 .BUY 101 5), .cancel 1]
  obtain ⟨ts, s, hr, hok⟩ := exists_roomy_run [] calls
    (fun ts s => (∀ x ∈ ts, x.1.Clean x.2.1) ∧ s.book.mBestBid = 0 ∧ s.book.mBestAsk = 101)
    (by decide +kernel)
  obtain ⟨hclean, hbid, hask⟩ := of_decide_eq_true hok
  exact ⟨ts, s, hr, quoted_of_clean_runs hr hclean, hbid, hask⟩

/-- The last live order of a price is filled exactly, with a cancelled one behind it: the price
stays quoted with nothing there. -/
theorem not_quoted_after_exact_fill : ∃ ts s, Runs RoomyStep (start []) ts s ∧ ¬ s.Quoted ∧
    s.book.mBestAsk = 100 ∧ s.book.mAskDepth = 0 := by
  obtain ⟨ts, s, hr, hok⟩ := exists_roomy_run []
    [.match 1 (.limit 1 .SELL 100 5), .match 2 (.limit 2 .SELL 100 5), .cancel 2,
      .match 3 (.limit 3 .BUY 100 5)]
    (fun _ s => ¬ s.Quoted ∧ s.book.mBestAsk = 100 ∧ s.book.mAskDepth = 0) (by decide +kernel)
  exact ⟨ts, s, hr, of_decide_eq_true hok⟩

end Session

end Velox
