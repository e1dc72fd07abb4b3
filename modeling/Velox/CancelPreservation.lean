import Velox.BookPreservation

namespace Velox.OrderBook
set_option autoImplicit true

open Greedy PriceLevel

variable {b : OrderBook} {orders : OrderHeap} {known : List OrderPtr} {p q : OrderPtr}
  {s s' : Bool} {l m : LevelPtr} {lvl : PriceLevel} {id : UInt64} {loc : OrderLocation}

/-- The three ways a cancel goes: no index entry, no level at the entry's price, or a level that
is cut, whether or not it holds the order. -/
theorem Stocked.cancel_cases (h : Stocked b orders known) (id : UInt64) :
    (b.mOrderIndex id = none ∧ b.cancelOrder id orders = (false, b, orders)) ∨
    (∃ loc, b.mOrderIndex id = some loc ∧ b.mPriceToLevel loc.price = none ∧
      b.cancelOrder id orders = (false, b.eraseIndex id, orders)) ∨
    ∃ loc l s lvl, b.mOrderIndex id = some loc ∧ b.mPriceToLevel loc.price = some l ∧
      l ∈ b.levels s ∧ Cut loc.orderPtr orders (b.level l) lvl ∧
      b.cancelOrder id orders =
        (true, ((b.putLevel loc.isBid l lvl (orders loc.orderPtr).remainingQuantity).eraseIndex
          id).updateBestPrices.bumpSequence, cancelIn orders loc.orderPtr) := by
  cases hi : b.mOrderIndex id with
  | none => exact .inl ⟨rfl, cancelOrder_unknown hi⟩
  | some loc =>
    right
    obtain ⟨-, -, hactive, -⟩ := h.indexed id loc hi
    cases hm : b.mPriceToLevel loc.price with
    | none => exact .inl ⟨loc, rfl, hm, cancelOrder_homeless hi hm⟩
    | some l =>
      right
      obtain ⟨⟨s, hl⟩, -⟩ := (h.shelves.mapped _ l).1 hm
      obtain ⟨lvl, hcut, he⟩ := cancelOrder_found hi hm (h.shelves.wf s l hl) hactive
      exact ⟨loc, l, s, lvl, rfl, hm, hl, hcut, he⟩

theorem Stocked.eraseIndex (h : Stocked b orders known) (id : UInt64) :
    Stocked (b.eraseIndex id) orders known where
  shelves := h.shelves.of_eq (fun _ => rfl) rfl rfl rfl
  ringed := h.ringed
  indexed := fun id' loc hi => by
    by_cases hid : id' = id
    · rw [hid, index_eraseIndex, Function.update_self] at hi
      cases hi
    · rw [index_eraseIndex, Function.update_of_ne hid] at hi
      exact h.indexed id' loc hi

theorem Kept.eraseIndex (h : Kept b orders known) (id : UInt64) :
    Kept (b.eraseIndex id) orders known :=
  (h.stocked.eraseIndex id).kept (h.ladder.of_eq (fun _ => rfl) rfl rfl rfl)
    (congrArg (fun b => b.eraseIndex id) h.best)

section Cut

variable (h : Stocked b orders known) (hi : b.mOrderIndex id = some loc) (hl : l ∈ b.levels s)
  (hcut : Cut loc.orderPtr orders (b.level l) lvl)
include h hi hl hcut

theorem Stocked.mem_cut {q : UInt32} : m ∈ (b.putLevel loc.isBid l lvl q).levels s' ↔
    m ∈ b.levels s' ∧ (m = l → lvl.mSize ≠ 0) :=
  h.shelves.mem_putLevel hl (Cut.side h.shelves hl hcut (h.indexed id loc hi).2.2.2.2) s'

theorem Stocked.cut (r : UInt32) :
    Stocked ((b.putLevel loc.isBid l lvl r).eraseIndex id).updateBestPrices.bumpSequence
      (cancelIn orders loc.orderPtr) known where
  shelves := (Cut.shelves h.shelves hl hcut (h.indexed id loc hi).2.2.2.2 r).of_eq
    (fun _ => rfl) rfl rfl rfl
  ringed := fun s' m hm q hq => by
    obtain ⟨hmb, hz⟩ := (h.mem_cut hi hl hcut).1 hm
    change q ∈ ((b.putLevel loc.isBid l lvl r).level m).ring at hq
    by_cases hml : m = l
    · subst hml
      rw [level_putLevel (hz rfl)] at hq
      exact h.ringed s' m hmb q (hcut.ring_sub hq)
    · rw [level_putLevel_of_ne hml] at hq
      exact h.ringed s' m hmb q hq
  indexed := fun id' loc' hi' => by
    change Function.update (b.putLevel loc.isBid l lvl r).mOrderIndex id none id' = some loc' at hi'
    by_cases hid : id' = id
    · rw [hid, Function.update_self] at hi'
      cases hi'
    · rw [Function.update_of_ne hid, index_putLevel] at hi'
      obtain ⟨hk, hid', hrest⟩ := h.indexed id' loc' hi'
      have hne : loc'.orderPtr ≠ loc.orderPtr := fun he => by
        rw [he, (h.indexed id loc hi).2.1] at hid'
        exact hid hid'.symm
      rw [cancelIn_other hne]
      exact ⟨hk, hid', hrest⟩

omit h in
theorem Kept.cut (h : Kept b orders known) (r : UInt32) :
    Kept ((b.putLevel loc.isBid l lvl r).eraseIndex id).updateBestPrices.bumpSequence
      (cancelIn orders loc.orderPtr) known :=
  (h.stocked.cut hi hl hcut r).kept ((Cut.ladder hl hcut h.ladder
    (h.indexed id loc hi).2.2.2.2 r).of_eq (fun _ => rfl) rfl rfl rfl) rfl

end Cut

theorem Stocked.cancel (h : Stocked b orders known) (id : UInt64) :
    Stocked (b.cancelOrder id orders).2.1 (b.cancelOrder id orders).2.2 known := by
  rcases h.cancel_cases id with ⟨-, he⟩ | ⟨loc, -, -, he⟩ | ⟨loc, l, s, lvl, hi, -, hl, hcut, he⟩
  · rw [he]
    exact h
  · rw [he]
    exact h.eraseIndex id
  · rw [he]
    exact h.cut hi hl hcut _

theorem Kept.cancel (h : Kept b orders known) (id : UInt64) :
    Kept (b.cancelOrder id orders).2.1 (b.cancelOrder id orders).2.2 known := by
  rcases h.stocked.cancel_cases id with ⟨-, he⟩ | ⟨loc, -, -, he⟩ | ⟨loc, l, s, lvl, hi, -, hl, hcut, he⟩
  · rw [he]
    exact h
  · rw [he]
    exact h.eraseIndex id
  · rw [he]
    exact h.cut hi hl hcut _

theorem Intact.indexed_cases (h : Intact b orders known) (hi : b.mOrderIndex id = some loc) :
    units orders loc.orderPtr = 0 ∨ (isLive orders loc.orderPtr = true ∧
      (loc.orderPtr, units orders loc.orderPtr) ∈ b.sideQueue orders loc.isBid ∧
      ∃ l ∈ b.levels loc.isBid, loc.orderPtr ∈ (b.level l).ring ∧
        b.mPriceToLevel loc.price = some l) := by
  obtain ⟨hk, -, hactive, hprice, hside⟩ := h.indexed id loc hi
  rcases Nat.eq_zero_or_pos (units orders loc.orderPtr) with hz | hpos
  · exact .inl hz
  · right
    have hlive : isLive orders loc.orderPtr = true := isLive_iff.2 ⟨hactive, hpos⟩
    have hq := h.queued _ hk hlive
    rw [hside] at hq
    obtain ⟨l, hl, hx⟩ := mem_sideQueue.1 hq
    have hring := (mem_liveQueue.1 hx).1
    refine ⟨hlive, hq, l, hl, hring, (h.ladder.mapped _ l).2 ⟨⟨_, hl⟩, ?_⟩⟩
    rw [← hprice]
    exact (h.ladder.resting _ l hl _ hring).2.symm

theorem Intact.eraseIndex (h : Intact b orders known) (hi : b.mOrderIndex id = some loc)
    (hm : b.mPriceToLevel loc.price = none) : Intact (b.eraseIndex id) orders known where
  toKept := h.toKept.eraseIndex id
  counted := h.counted
  exact := h.exact
  depth := h.depth
  found := fun s x hx => by
    have hfound := h.found s x hx
    have hne : (orders x.1).orderId ≠ id := by
      intro hid
      rw [hid, hi, Option.some.injEq] at hfound
      subst hfound
      rcases h.indexed_cases hi with hz | ⟨-, -, l, -, -, hl⟩
      · have := (isLive_iff.1 (h.ladder.static_of_mem hx).2.1).2
        exact absurd hz this.ne'
      · rw [hm] at hl
        cases hl
    rw [index_eraseIndex, Function.update_of_ne hne]
    exact hfound
  queued := h.queued

section CutIntact

variable (h : Intact b orders known) (hi : b.mOrderIndex id = some loc)
  (hm : b.mPriceToLevel loc.price = some l) (hl : l ∈ b.levels s)
  (hcut : Cut loc.orderPtr orders (b.level l) lvl)
include h hi hm hl hcut

omit hcut hl hm in
theorem Intact.cut_queue (s₀ : Bool) :
    (s₀ = loc.isBid ∧ (loc.orderPtr, units orders loc.orderPtr) ∈ b.sideQueue orders s₀) ∨
    (loc.orderPtr ∉ (b.sideQueue orders s₀).map Prod.fst ∧
      (s₀ = loc.isBid → units orders loc.orderPtr = 0)) := by
  by_cases hs : s₀ = loc.isBid ∧ units orders loc.orderPtr ≠ 0
  · obtain ⟨rfl, hne⟩ := hs
    exact .inl ⟨rfl, ((h.indexed_cases hi).resolve_left hne).2.1⟩
  · refine .inr ⟨fun hmem => hs ?_, fun he => by_contra fun hne => hs ⟨he, hne⟩⟩
    obtain ⟨x, hx, he⟩ := List.mem_map.1 hmem
    obtain ⟨hside, hlive, -⟩ := h.ladder.static_of_mem hx
    rw [he] at hside hlive
    exact ⟨by rw [← hside, (h.indexed id loc hi).2.2.2.2], (isLive_iff.1 hlive).2.ne'⟩

omit hcut hl in
theorem Intact.cut_mem : (loc.orderPtr ∈ (b.level l).ring ∧ isLive orders loc.orderPtr = true) ∨
    units orders loc.orderPtr = 0 := by
  rcases h.indexed_cases hi with hz | ⟨hlive, -, l', -, hring, hm'⟩
  · exact .inr hz
  · rw [hm, Option.some.injEq] at hm'
    subst hm'
    exact .inl ⟨hring, hlive⟩

theorem Intact.cut : Intact
    ((b.putLevel loc.isBid l lvl (orders loc.orderPtr).remainingQuantity).eraseIndex
      id).updateBestPrices.bumpSequence (cancelIn orders loc.orderPtr) known where
  toKept := h.toKept.cut hi hl hcut _
  counted := fun s' m hmem => by
    obtain ⟨hmb, hz⟩ := (h.toKept.stocked.mem_cut hi hl hcut).1 hmem
    change ((b.putLevel loc.isBid l lvl _).level m).mSize =
      ((b.putLevel loc.isBid l lvl _).level m).used
    by_cases hml : m = l
    · subst hml
      rw [level_putLevel (hz rfl)]
      have hc := hcut.counted
      have := h.counted s' m hmb
      omega
    · rw [level_putLevel_of_ne hml]
      exact h.counted s' m hmb
  exact := fun s' m hmem => by
    obtain ⟨hmb, hz⟩ := (h.toKept.stocked.mem_cut hi hl hcut).1 hmem
    change ((b.putLevel loc.isBid l lvl _).level m).Exact _
    by_cases hml : m = l
    · subst hml
      rw [level_putLevel (hz rfl)]
      exact hcut.exact (h.ladder.wf s' m hmb) (h.exact s' m hmb) (h.cut_mem hi hm)
    · rw [level_putLevel_of_ne hml, PriceLevel.Exact, liveQueue_cancelIn, filter_ne_self]
      · exact h.exact s' m hmb
      · rw [keys_liveQueue, List.mem_filter]
        rintro ⟨hring, hlive⟩
        rcases h.cut_mem hi hm with ⟨hring', -⟩ | hz
        · exact hml (h.ladder.ring_unique hmb hl hring hring')
        · exact absurd hz (isLive_iff.1 hlive).2.ne'
  depth := fun s₀ => by
    change (b.putLevel loc.isBid l lvl _).depth s₀ =
      UInt32.ofNat (total ((b.putLevel loc.isBid l lvl _).sideQueue _ s₀))
    rw [Cut.sideQueue h.ladder.shelves hl hcut (h.indexed id loc hi).2.2.2.2]
    have hnd := h.ladder.sideQueue_nodup s₀
    rcases h.cut_queue hi s₀ with ⟨rfl, hq⟩ | ⟨hn, hz⟩
    · rw [depth_putLevel, total_cancelled hnd (.inl hq), h.depth]
    · rw [filter_ne_self hn]
      by_cases hs : s₀ = loc.isBid
      · rw [hs, depth_putLevel, units_eq_zero_iff.1 (hz hs), UInt32.sub_zero]
        exact h.depth _
      · rw [depth_putLevel_of_ne hs]
        exact h.depth s₀
  found := fun s₀ x hx => by
    change x ∈ (b.putLevel loc.isBid l lvl _).sideQueue _ s₀ at hx
    rw [Cut.sideQueue h.ladder.shelves hl hcut (h.indexed id loc hi).2.2.2.2, List.mem_filter,
      decide_eq_true_eq] at hx
    obtain ⟨hx, hne⟩ := hx
    have hfound := h.found s₀ x hx
    have hid : (orders x.1).orderId ≠ id := fun he => by
      rw [he, hi, Option.some.injEq] at hfound
      exact hne (by rw [hfound])
    rw [cancelIn_other hne]
    change Function.update (b.putLevel loc.isBid l lvl _).mOrderIndex id none _ = _
    rw [Function.update_of_ne hid, index_putLevel, hfound]
  queued := fun q hk hlive => by
    rw [isLive_cancelIn, Bool.and_eq_true, decide_eq_true_eq] at hlive
    obtain ⟨hlive, hne⟩ := hlive
    rw [cancelIn_other hne, units_cancelIn]
    change _ ∈ (b.putLevel loc.isBid l lvl _).sideQueue _ _
    rw [Cut.sideQueue h.ladder.shelves hl hcut (h.indexed id loc hi).2.2.2.2, List.mem_filter,
      decide_eq_true_eq]
    exact ⟨h.queued q hk hlive, hne⟩

end CutIntact

theorem Intact.cancel (h : Intact b orders known) (id : UInt64) :
    Intact (b.cancelOrder id orders).2.1 (b.cancelOrder id orders).2.2 known := by
  rcases h.toKept.stocked.cancel_cases id with
    ⟨-, he⟩ | ⟨loc, hi, hm, he⟩ | ⟨loc, l, s, lvl, hi, hm, hl, hcut, he⟩
  · rw [he]
    exact h
  · rw [he]
    exact h.eraseIndex hi hm
  · rw [he]
    exact h.cut hi hm hl hcut

theorem Kept.cancel_static (h : Kept b orders known) (id : UInt64) {g : Order → α}
    (hg : ∀ o, g o.cancel = g o) (q : OrderPtr) :
    g ((b.cancelOrder id orders).2.2 q) = g (orders q) := by
  rcases h.stocked.cancel_cases id with ⟨-, he⟩ | ⟨loc, -, -, he⟩ | ⟨loc, l, s, lvl, -, -, -, -, he⟩
  · rw [he]
  · rw [he]
  · rw [he]
    exact cancelIn_static hg orders loc.orderPtr q

theorem Kept.cancel_other (h : Kept b orders known) (id : UInt64) {q : OrderPtr} (hq : q ∉ known) :
    (b.cancelOrder id orders).2.2 q = orders q := by
  rcases h.stocked.cancel_cases id with ⟨-, he⟩ | ⟨loc, -, -, he⟩ | ⟨loc, l, s, lvl, hi, -, -, -, he⟩
  · rw [he]
  · rw [he]
  · rw [he]
    exact cancelIn_other fun he => hq (he ▸ (h.indexed id loc hi).1)

/-- A cancel takes the live order with the id out of the queues, and no other. -/
theorem Intact.cancel_queue (h : Intact b orders known) (id : UInt64) (s : Bool) :
    (b.cancelOrder id orders).2.1.sideQueue (b.cancelOrder id orders).2.2 s =
      (b.sideQueue orders s).filter fun x => (orders x.1).orderId ≠ id := by
  rcases h.toKept.stocked.cancel_cases id with
    ⟨hi, he⟩ | ⟨loc, hi, hm, he⟩ | ⟨loc, l, s', lvl, hi, hm, hl, hcut, he⟩
  · rw [he, eq_comm, List.filter_eq_self]
    intro x hx
    rw [decide_eq_true_eq]
    intro hid
    have hfound := h.found s x hx
    rw [hid, hi] at hfound
    cases hfound
  · rw [he, eq_comm]
    refine List.filter_eq_self.2 fun x hx => ?_
    rw [decide_eq_true_eq]
    intro hid
    have hfound := (h.eraseIndex hi hm).found s x hx
    rw [hid, index_eraseIndex, Function.update_self] at hfound
    cases hfound
  · rw [he]
    refine (Cut.sideQueue h.ladder.shelves hl hcut (h.indexed id loc hi).2.2.2.2 _ s).trans ?_
    apply List.filter_congr
    intro x hx
    rw [decide_eq_decide, not_iff_not]
    constructor
    · intro hxp
      rw [hxp, (h.indexed id loc hi).2.1]
    · intro hid
      have hfound := h.found s x hx
      rw [hid, hi, Option.some.injEq] at hfound
      rw [hfound]

end Velox.OrderBook
