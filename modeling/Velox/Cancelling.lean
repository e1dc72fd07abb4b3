import Velox.BookMatching

namespace Velox
set_option autoImplicit true

open Greedy PriceLevel

variable {orders : OrderHeap} {p q : OrderPtr} {ps : List OrderPtr}

def cancelIn (orders : OrderHeap) (p : OrderPtr) : OrderHeap :=
  Function.update orders p (orders p).cancel

theorem cancelIn_other (h : q ≠ p) : cancelIn orders p q = orders q := Function.update_of_ne h _ _

@[simp] theorem cancelIn_self : cancelIn orders p p = (orders p).cancel := Function.update_self _ _ _

theorem cancelIn_static {g : Order → β} (hg : ∀ o, g o.cancel = g o) (orders : OrderHeap)
    (p q : OrderPtr) : g (cancelIn orders p q) = g (orders q) := by
  by_cases h : q = p
  · rw [h, cancelIn_self, hg]
  · rw [cancelIn_other h]

theorem units_cancelIn (orders : OrderHeap) (p q : OrderPtr) :
    units (cancelIn orders p) q = units orders q :=
  cancelIn_static (g := fun o => o.remainingQuantity.toNat) (fun _ => rfl) orders p q

theorem isLive_cancelIn : isLive (cancelIn orders p) q = (isLive orders q && decide (q ≠ p)) := by
  by_cases h : q = p
  · have hc : (orders p).cancel.isActive = false := rfl
    rw [h, isLive, cancelIn_self, hc]
    simp only [Bool.false_and, ne_eq, not_true_eq_false, decide_false, Bool.and_false]
  · rw [isLive, cancelIn_other h, isLive]
    simp only [ne_eq, h, not_false_eq_true, decide_true, Bool.and_true]

theorem liveQueue_cancelIn (ps : List OrderPtr) :
    liveQueue (cancelIn orders p) ps = (liveQueue orders ps).filter fun x => x.1 ≠ p := by
  induction ps with
  | nil => rfl
  | cons q ps ih =>
    have hsplit (orders : OrderHeap) :
        liveQueue orders (q :: ps) = liveQueue orders [q] ++ liveQueue orders ps :=
      liveQueue_append [q] ps
    rw [hsplit, hsplit orders, List.filter_append, ← ih]
    congr 1
    simp only [liveQueue, List.filter_cons, List.filter_nil, isLive_cancelIn]
    cases isLive orders q <;> by_cases h : q = p <;>
      simp [h, units_cancelIn]

theorem keys_liveQueue (orders : OrderHeap) (ps : List OrderPtr) :
    (liveQueue orders ps).map Prod.fst = ps.filter (isLive orders) := by
  rw [liveQueue, List.map_map]
  exact List.map_id _

theorem total_cancelled {xs : List (OrderPtr × ℕ)} (hnd : (xs.map Prod.fst).Nodup)
    (h : (p, units orders p) ∈ xs ∨ (p ∉ xs.map Prod.fst ∧ units orders p = 0)) :
    UInt32.ofNat (total (xs.filter fun x => x.1 ≠ p)) =
      UInt32.ofNat (total xs) - (orders p).remainingQuantity := by
  have hsub : ∀ a b : UInt32, a = a + b - b := by grind
  have hunits : UInt32.ofNat (units orders p) = (orders p).remainingQuantity := UInt32.ofNat_toNat
  rcases h with h | ⟨h, hz⟩
  · rw [← total_filter_ne hnd h, UInt32.ofNat_add, hunits, ← hsub]
  · rw [filter_ne_self h, units_eq_zero_iff.1 hz, UInt32.sub_zero]

namespace PriceLevel

variable {lvl lvl' : PriceLevel}

theorem Wf.head?_ring (h : lvl.Wf) (hne : lvl.mHead ≠ lvl.mTail) :
    lvl.ring.head? = lvl.mBuffer lvl.mHead := by
  obtain ⟨q, hq, hr, -⟩ := h.uncons hne
  rw [hr, hq]
  rfl

/-- What cancelling an active order does to the level it is looked for in. -/
structure Cut (p : OrderPtr) (orders : OrderHeap) (lvl lvl' : PriceLevel) : Prop where
  swept : Swept (cancelIn orders p)
    (lvl.withTotal (lvl.mTotalQuantity - (orders p).remainingQuantity)) lvl'
  behind : lvl.ring.head? ≠ some p →
    lvl' = lvl.withTotal (lvl.mTotalQuantity - (orders p).remainingQuantity)
  front : lvl.ring.head? = some p → ∀ q, lvl'.ring.head? = some q →
    isLive (cancelIn orders p) q = true

theorem removeOrder_spec (h : lvl.Wf) (ha : (orders p).isActive = true) :
    ∃ lvl', lvl.removeOrder (some p) orders = (lvl', cancelIn orders p) ∧ Cut p orders lvl lvl' := by
  let cut := lvl.withTotal (lvl.mTotalQuantity - (orders p).remainingQuantity)
  have hcut : cut.Wf := ⟨h.nonnull, h.nodup, h.counted⟩
  have hrem : (cancelIn orders p p).remainingQuantity = (orders p).remainingQuantity := by
    rw [cancelIn_self]
    rfl
  have heq : lvl.removeOrder (some p) orders =
      if lvl.mHead ≠ lvl.mTail ∧ lvl.mBuffer lvl.mHead = some p then
        (cut.advance (cancelIn orders p), cancelIn orders p)
      else (cut, cancelIn orders p) := by
    simp only [removeOrder, ha, Bool.true_eq_false, if_false, ← cancelIn.eq_def, hrem]
    rfl
  rw [heq]
  by_cases hhead : lvl.mHead ≠ lvl.mTail ∧ lvl.mBuffer lvl.mHead = some p
  · rw [if_pos hhead]
    obtain ⟨hswept, hexit⟩ := advance_spec (cancelIn orders p) hcut
    refine ⟨_, rfl, hswept, fun hn => ?_, fun _ q hq => ?_⟩
    · exact absurd ((h.head?_ring hhead.1).trans hhead.2) hn
    · rcases hexit with he | he
      · rw [ring_empty he] at hq
        cases hq
      · have hne : (cut.advance (cancelIn orders p)).mHead ≠
            (cut.advance (cancelIn orders p)).mTail := by
          intro he
          rw [ring_empty he] at hq
          cases hq
        rwa [← hswept.wf.head?_ring hne, hq, Option.any_some] at he
  · rw [if_neg hhead]
    refine ⟨_, rfl, .refl hcut, fun _ => rfl, fun hf => ?_⟩
    have hne : lvl.mHead ≠ lvl.mTail := by
      intro he
      rw [ring_empty he] at hf
      cases hf
    exact absurd ⟨hne, (h.head?_ring hne).symm.trans hf⟩ hhead

variable (hc : Cut p orders lvl lvl')
include hc

theorem Cut.ring_sub (hq : q ∈ lvl'.ring) : q ∈ lvl.ring := by
  obtain ⟨ps, hps, -⟩ := hc.swept.dead
  rw [show lvl.ring = ps ++ lvl'.ring from hps]
  exact List.mem_append_right _ hq

theorem Cut.counted : lvl'.mSize + lvl.used = lvl.mSize + lvl'.used := hc.swept.counted

theorem Cut.liveQueue : Velox.liveQueue (cancelIn orders p) lvl'.ring =
    (Velox.liveQueue orders lvl.ring).filter fun x => x.1 ≠ p := by
  obtain ⟨ps, hps, hdead⟩ := hc.swept.dead
  rw [← liveQueue_cancelIn, show lvl.ring = ps ++ lvl'.ring from hps, liveQueue_append,
    liveQueue_dead hdead, List.nil_append]

theorem Cut.size_eq (hp : p ∉ lvl.ring) : lvl'.mSize = lvl.mSize := by
  rw [hc.behind fun hf => hp (List.mem_of_head? hf)]
  rfl

theorem Cut.exact (h : lvl.Wf) (he : lvl.Exact orders)
    (hp : (p ∈ lvl.ring ∧ isLive orders p = true) ∨ units orders p = 0) :
    lvl'.Exact (cancelIn orders p) := by
  have hnd : ((Velox.liveQueue orders lvl.ring).map Prod.fst).Nodup := by
    rw [keys_liveQueue]
    exact h.nodup.filter _
  rw [PriceLevel.Exact, hc.swept.total, hc.liveQueue, total_cancelled hnd, ← he]
  · rfl
  · rcases hp with ⟨hp, hlive⟩ | hz
    · exact .inl (mem_liveQueue.2 ⟨hp, hlive, rfl⟩)
    · refine .inr ⟨fun hm => ?_, hz⟩
      rw [keys_liveQueue, List.mem_filter] at hm
      have := (isLive_iff.1 hm.2).2
      omega

end PriceLevel

namespace OrderBook

variable {b : OrderBook} {id : UInt64} {loc : OrderLocation} {l m : LevelPtr} {s s' : Bool}
  {lvl : PriceLevel}

theorem cancelOrder_unknown (h : b.mOrderIndex id = none) :
    b.cancelOrder id orders = (false, b, orders) := by
  rw [cancelOrder, h]

theorem cancelOrder_homeless (h : b.mOrderIndex id = some loc)
    (hm : b.mPriceToLevel loc.price = none) :
    b.cancelOrder id orders = (false, b.eraseIndex id, orders) := by
  simp only [cancelOrder, h, findLevel, hm]

theorem cancelOrder_found (h : b.mOrderIndex id = some loc) (hm : b.mPriceToLevel loc.price = some l)
    (hwf : (b.level l).Wf) (ha : (orders loc.orderPtr).isActive = true) :
    ∃ lvl, Cut loc.orderPtr orders (b.level l) lvl ∧ b.cancelOrder id orders =
      (true, ((b.putLevel loc.isBid l lvl (orders loc.orderPtr).remainingQuantity).eraseIndex
        id).updateBestPrices.bumpSequence, cancelIn orders loc.orderPtr) := by
  obtain ⟨lvl, hr, hcut⟩ := removeOrder_spec hwf ha
  have hrem : (cancelIn orders loc.orderPtr loc.orderPtr).remainingQuantity =
      (orders loc.orderPtr).remainingQuantity := by
    rw [cancelIn_self]
    rfl
  have htwice : Function.update (cancelIn orders loc.orderPtr) loc.orderPtr
      (cancelIn orders loc.orderPtr loc.orderPtr).cancel = cancelIn orders loc.orderPtr := by
    rw [cancelIn_self, cancelIn, Function.update_idem]
    rfl
  refine ⟨lvl, hcut, ?_⟩
  simp only [cancelOrder, h, findLevel, hm, hr, hrem, htwice, PriceLevel.empty, beq_iff_eq,
    putLevel]

theorem flatMap_erase {α β : Type*} [DecidableEq α] {f : α → List β} {a : α} (h : f a = []) (xs : List α) :
    (xs.erase a).flatMap f = xs.flatMap f := by
  induction xs with
  | nil => rfl
  | cons x xs ih =>
    by_cases he : x = a
    · rw [he, List.erase_cons_head, List.flatMap_cons, h, List.nil_append]
    · rw [List.erase_cons_tail (by simpa using he), List.flatMap_cons, List.flatMap_cons, ih]

section Cut

variable (h : Shelves b orders) (hl : l ∈ b.levels s') (hcut : Cut p orders (b.level l) lvl)
include h hl hcut

/-- A level that loses all its orders to a cancel held the order, so it is on the order's side. -/
theorem Cut.side (hside : (orders p).isBuy = s) (hz : lvl.mSize = 0) : s' = s := by
  have hp : p ∈ (b.level l).ring := by
    by_contra hn
    rw [hcut.size_eq hn] at hz
    exact h.nonempty s' l hl hz
  rw [← hside, (h.resting s' l hl p hp).1]

theorem Cut.shelves (hside : (orders p).isBuy = s) (q : UInt32) :
    Shelves (b.putLevel s l lvl q) (cancelIn orders p) := by
  refine h.putLevel hl (Cut.side h hl hcut hside) hcut.swept.price hcut.swept.wf
    (fun q hq => hcut.ring_sub hq)
    (fun q => ⟨cancelIn_static (fun _ => rfl) orders p q, cancelIn_static (fun _ => rfl) orders p q⟩)
    ?_
  intro s₀ m hm q hq _ ha
  rw [units_cancelIn]
  refine h.unfilled s₀ m hm q hq ?_
  by_cases hqp : q = p
  · subst hqp
    rw [cancelIn_self] at ha
    cases ha
  · rwa [cancelIn_other hqp] at ha

omit h in
theorem Cut.ladder (h : Ladder b orders) (hside : (orders p).isBuy = s) (q : UInt32) :
    Ladder (b.putLevel s l lvl q) (cancelIn orders p) :=
  h.of_putLevel hl (Cut.side h.shelves hl hcut hside) hcut.swept.price
    (Cut.shelves h.shelves hl hcut hside q)

theorem Cut.sideQueue (hside : (orders p).isBuy = s) (q : UInt32) (s₀ : Bool) :
    (b.putLevel s l lvl q).sideQueue (cancelIn orders p) s₀ =
      (b.sideQueue orders s₀).filter fun x => x.1 ≠ p := by
  have hkept : (b.sideQueue orders s₀).filter (fun x => x.1 ≠ p) =
      (b.levels s₀).flatMap fun m =>
        liveQueue (cancelIn orders p) (if m = l then lvl else b.level m).ring := by
    rw [OrderBook.sideQueue, queueOf, List.filter_flatMap]
    apply List.flatMap_congr
    intro m hm
    split
    · rename_i he
      rw [he, hcut.liveQueue]
    · rw [liveQueue_cancelIn]
  have hlevel : ∀ m, (m = l → lvl.mSize ≠ 0) →
      liveQueue (cancelIn orders p) ((b.putLevel s l lvl q).level m).ring =
        liveQueue (cancelIn orders p) (if m = l then lvl else b.level m).ring := by
    intro m hz
    split
    · rename_i he
      rw [he, level_putLevel (hz he)]
    · rename_i he
      rw [level_putLevel_of_ne he]
  have hmem := fun m => h.mem_putLevel (m := m) (q := q) hl (Cut.side h hl hcut hside) s₀
  rw [hkept, OrderBook.sideQueue, queueOf,
    List.flatMap_congr fun m hm => hlevel m ((hmem m).1 hm).2]
  by_cases hz : lvl.mSize = 0 ∧ s₀ = s
  · obtain ⟨hz, rfl⟩ := hz
    rw [levels_putLevel, if_pos hz, flatMap_erase]
    rw [if_pos rfl, hcut.swept.wf.ring_of_size hz, liveQueue_nil]
  · congr 1
    by_cases hs : s₀ = s
    · rw [hs, levels_putLevel, if_neg fun hn => hz ⟨hn, hs⟩]
    · rw [levels_putLevel_of_ne hs]

end Cut

end OrderBook

end Velox
