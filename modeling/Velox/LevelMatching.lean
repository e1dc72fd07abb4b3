import Velox.Trades

namespace Velox.PriceLevel
set_option autoImplicit true

open Greedy

variable {p c : OrderPtr} {s t : LevelRun} {fs : List Fill} {ps : List OrderPtr}

/-- A level resting against any incoming order accepts all of its queue. -/
def anyOrder : OrderPtr → Bool := fun _ => true

/-- What matching has done so far: the fills drawn from the live orders of the ring, oldest first,
and nothing else. -/
structure Matched (p : OrderPtr) (s t : LevelRun) (fs : List Fill) : Prop where
  fills : t.fills = s.fills ++ fs
  orders : t.orders = replay p s.orders fs
  fair : Fair p s.orders fs
  makers : ∀ f ∈ fs, f.order ∈ s.level.ring
  price : t.level.mPrice = s.level.mPrice
  total : t.level.mTotalQuantity = s.level.mTotalQuantity - UInt32.ofNat (volume fs)
  counted : t.level.mSize + s.level.used = s.level.mSize + t.level.used
  gone : ∃ ps, s.level.ring = ps ++ t.level.ring
  keeps : ∀ q ∈ t.level.ring, isLive t.orders q = isLive s.orders q
  wf : t.level.Wf
  drawn : consume anyOrder (units s.orders p) (liveQueue s.orders s.level.ring) =
    ⟨fs.map Fill.pair ++ (consume anyOrder (units t.orders p) (liveQueue t.orders t.level.ring)).taken,
      (consume anyOrder (units t.orders p) (liveQueue t.orders t.level.ring)).rest,
      (consume anyOrder (units t.orders p) (liveQueue t.orders t.level.ring)).left⟩

theorem Matched.refl (h : s.level.Wf) : Matched p s s [] where
  fills := (List.append_nil _).symm
  orders := rfl
  fair := trivial
  makers := fun f hf => by cases hf
  price := rfl
  total := (UInt32.sub_zero _).symm
  counted := rfl
  gone := ⟨[], rfl⟩
  keeps := fun _ _ => rfl
  wf := h
  drawn := rfl

theorem Matched.not_mem (h : Matched p s t fs) (hp : p ∉ s.level.ring) : p ∉ t.level.ring := by
  obtain ⟨ps, hps⟩ := h.gone
  exact fun hm => hp (hps ▸ List.mem_append_right _ hm)

theorem Matched.sweep {lvl : PriceLevel} (h : Matched p s t fs) (hs : Swept t.orders t.level lvl) :
    Matched p s { t with level := lvl } fs := by
  obtain ⟨ps, hps⟩ := h.gone
  obtain ⟨qs, hqs, hdead⟩ := hs.dead
  have hq : liveQueue t.orders t.level.ring = liveQueue t.orders lvl.ring := by
    rw [hqs, liveQueue_append, liveQueue_dead hdead, List.nil_append]
  exact
    { fills := h.fills
      orders := h.orders
      fair := h.fair
      makers := h.makers
      price := hs.price.trans h.price
      total := hs.total.trans h.total
      counted := by
        have h₁ := h.counted
        have h₂ := hs.counted
        change lvl.mSize + s.level.used = s.level.mSize + lvl.used
        omega
      gone := ⟨ps ++ qs, by rw [hps, hqs, List.append_assoc]⟩
      keeps := fun q hm => h.keeps q (hqs ▸ List.mem_append_right _ hm)
      wf := hs.wf
      drawn := by rw [h.drawn, hq] }

theorem isLive_iff {orders : OrderHeap} :
    isLive orders p = true ↔ (orders p).isActive = true ∧ 0 < units orders p := by
  have h : (0 : UInt32).toNat = 0 := rfl
  simp only [isLive, Bool.and_eq_true, decide_eq_true_eq, gt_iff_lt, UInt32.lt_iff_toNat_lt, units,
    h]

theorem units_eq_zero_iff {orders : OrderHeap} :
    units orders p = 0 ↔ (orders p).remainingQuantity = 0 := by
  rw [units, ← UInt32.toNat_inj]
  rfl

theorem not_dead_of_isLive {orders : OrderHeap} (h : isLive orders c = true) :
    ¬ ((orders c).isActive = false ∨ (orders c).remainingQuantity = 0) := by
  obtain ⟨hact, hpos⟩ := isLive_iff.1 h
  rintro (hf | hf)
  · rw [hact] at hf
    cases hf
  · exact hpos.ne' (units_eq_zero_iff.2 hf)

theorem turn_fills (hq : (t.orders p).remainingQuantity ≠ 0)
    (hne : (t.level.advance t.orders).mHead ≠ (t.level.advance t.orders).mTail)
    (hc : (t.level.advance t.orders).mBuffer (t.level.advance t.orders).mHead = some c)
    (hlive : isLive t.orders c = true) :
    matchOrderBody p t =
      if ((PriceLevel.fillHead p c { t with level := t.level.advance t.orders }).orders
          p).remainingQuantity = 0 then
        some (.inl (PriceLevel.fillHead p c { t with level := t.level.advance t.orders }))
      else some (.inr (PriceLevel.fillHead p c { t with level := t.level.advance t.orders })) := by
  rw [matchOrderBody, if_neg hq]
  simp only [if_neg hne, hc, if_neg (not_dead_of_isLive hlive)]

def headTrade (p c : OrderPtr) (orders : OrderHeap) : Fill :=
  { order := c
    quantity := min (orders c).remainingQuantity (orders p).remainingQuantity
    price := (orders p).price }

theorem headTrade_quantity (p c : OrderPtr) (orders : OrderHeap) :
    (headTrade p c orders).quantity.toNat = min (units orders c) (units orders p) := by
  have h : (headTrade p c orders).quantity =
      if (orders c).remainingQuantity ≤ (orders p).remainingQuantity
      then (orders c).remainingQuantity else (orders p).remainingQuantity := rfl
  rw [h, units, units]
  split <;> rename_i hle <;> rw [UInt32.le_iff_toNat_le] at hle <;> omega

def withTotal (lvl : PriceLevel) (q : UInt32) : PriceLevel := { lvl with mTotalQuantity := q }

@[simp] theorem ring_withTotal (lvl : PriceLevel) (q : UInt32) :
    (lvl.withTotal q).ring = lvl.ring := rfl

theorem fillHead_eq (hc : 0 < units t.orders c) (hp : 0 < units t.orders p) :
    fillHead p c t =
      { level :=
          if units (trade p t.orders (headTrade p c t.orders)) c = 0 then
            t.level.popHead.withTotal (t.level.mTotalQuantity - (headTrade p c t.orders).quantity)
          else
            t.level.withTotal (t.level.mTotalQuantity - (headTrade p c t.orders).quantity)
        orders := trade p t.orders (headTrade p c t.orders)
        fills := t.fills ++ [headTrade p c t.orders] } := by
  have hpos : (headTrade p c t.orders).quantity > 0 := by
    rw [gt_iff_lt, UInt32.lt_iff_toNat_lt, headTrade_quantity]
    exact lt_min hc hp
  simp only [units_eq_zero_iff]
  exact if_pos hpos

theorem units_sub {o : Order} {q : UInt32} (h : q.toNat ≤ o.remainingQuantity.toNat) :
    (o.trade q).remainingQuantity.toNat = o.remainingQuantity.toNat - q.toNat :=
  UInt32.toNat_sub_of_le _ _ (UInt32.le_iff_toNat_le.2 h)

section Head

variable {orders : OrderHeap} (hcp : c ≠ p)
include hcp

theorem units_headTrade_maker : units (trade p orders (headTrade p c orders)) c =
    units orders c - min (units orders c) (units orders p) := by
  have hq := headTrade_quantity p c orders
  rw [units, show trade p orders (headTrade p c orders) c = _ from trade_maker hcp, units_sub]
  · rw [hq]
    rfl
  · rw [hq]
    exact min_le_left _ _

theorem units_headTrade_incoming : units (trade p orders (headTrade p c orders)) p =
    units orders p - min (units orders c) (units orders p) := by
  have hq := headTrade_quantity p c orders
  rw [units, trade_incoming hcp, units_sub]
  · rw [hq]
    rfl
  · rw [hq]
    exact min_le_right _ _

omit hcp in
theorem headTrade_other {lvl : PriceLevel} (hring : lvl.ring = c :: ps) (hnd : lvl.ring.Nodup)
    (hp : p ∉ lvl.ring) {q : OrderPtr} (hq : q ∈ ps) :
    trade p orders (headTrade p c orders) q = orders q := by
  rw [hring] at hnd hp
  apply trade_other
  · rintro rfl
    exact (List.nodup_cons.1 hnd).1 hq
  · rintro rfl
    exact hp (List.mem_cons_of_mem _ hq)

end Head

theorem Matched.trade {lvl : PriceLevel} (h : Matched p s t fs) (hring : t.level.ring = c :: ps)
    (hcp : c ≠ p) (hlive : isLive t.orders c = true) (hq : 0 < units t.orders p)
    (hprice : lvl.mPrice = t.level.mPrice)
    (htotal : lvl.mTotalQuantity = t.level.mTotalQuantity - (headTrade p c t.orders).quantity)
    (hcounted : lvl.mSize + t.level.used = t.level.mSize + lvl.used)
    (hgone : ∃ ps, t.level.ring = ps ++ lvl.ring)
    (hkeeps : ∀ q ∈ lvl.ring, isLive (Velox.trade p t.orders (headTrade p c t.orders)) q =
      isLive t.orders q)
    (hwf : lvl.Wf)
    (hdrawn : consume anyOrder (units t.orders p) (liveQueue t.orders t.level.ring) =
      ⟨(headTrade p c t.orders).pair ::
          (consume anyOrder (units (Velox.trade p t.orders (headTrade p c t.orders)) p)
            (liveQueue (Velox.trade p t.orders (headTrade p c t.orders)) lvl.ring)).taken,
        (consume anyOrder (units (Velox.trade p t.orders (headTrade p c t.orders)) p)
          (liveQueue (Velox.trade p t.orders (headTrade p c t.orders)) lvl.ring)).rest,
        (consume anyOrder (units (Velox.trade p t.orders (headTrade p c t.orders)) p)
          (liveQueue (Velox.trade p t.orders (headTrade p c t.orders)) lvl.ring)).left⟩) :
    Matched p s ⟨lvl, Velox.trade p t.orders (headTrade p c t.orders),
      t.fills ++ [headTrade p c t.orders]⟩ (fs ++ [headTrade p c t.orders]) := by
  obtain ⟨gs, hgs⟩ := h.gone
  obtain ⟨hs, hhs⟩ := hgone
  have hprice' : (t.orders p).price = (s.orders p).price := by
    rw [h.orders]
    exact replay_static (fun _ _ => rfl) p s.orders fs p
  have hsub : ∀ a b c : UInt32, a - b - c = a - (b + c) := by grind
  exact
    { fills := by rw [h.fills, List.append_assoc]
      orders := by rw [replay_snoc, ← h.orders]
      fair := by
        rw [fair_append, ← h.orders]
        refine ⟨h.fair, hcp, hlive, ?_, ?_, ?_, rfl, trivial⟩
        · rw [headTrade_quantity]
          exact lt_min (isLive_iff.1 hlive).2 hq
        · rw [headTrade_quantity]
          exact min_le_left _ _
        · rw [headTrade_quantity]
          exact min_le_right _ _
      makers := by
        intro f hf
        rcases List.mem_append.1 hf with hf | hf
        · exact h.makers f hf
        · rw [List.mem_singleton] at hf
          subst hf
          rw [hgs, hring]
          exact List.mem_append_right _ List.mem_cons_self
      price := hprice.trans h.price
      total := by
        rw [htotal, h.total, volume_append, volume_singleton, UInt32.ofNat_add, UInt32.ofNat_toNat]
        exact hsub _ _ _
      counted := by
        have h₁ := h.counted
        change lvl.mSize + s.level.used = s.level.mSize + lvl.used
        omega
      gone := ⟨gs ++ hs, by rw [hgs, hhs, List.append_assoc]⟩
      keeps := fun q hm => (hkeeps q hm).trans (h.keeps q (hhs ▸ List.mem_append_right _ hm))
      wf := hwf
      drawn := by
        rw [h.drawn, hdrawn]
        simp only [List.map_append, List.map_cons, List.map_nil, List.append_assoc,
          List.singleton_append] }

theorem Matched.whole (h : Matched p s t fs) (hp : p ∉ s.level.ring)
    (hne : t.level.mHead ≠ t.level.mTail) (hc : t.level.mBuffer t.level.mHead = some c)
    (hlive : isLive t.orders c = true) (hq : 0 < units t.orders p)
    (hle : units t.orders c ≤ units t.orders p) :
    Matched p s (fillHead p c t) (fs ++ [headTrade p c t.orders]) ∧
      (fillHead p c t).level.used < t.level.used := by
  obtain ⟨c', hc', hring, hwf⟩ := h.wf.uncons hne
  obtain rfl : c = c' := Option.some.inj (hc.symm.trans hc')
  have hpt := h.not_mem hp
  have hcp : c ≠ p := fun he => hpt (by rw [hring, he]; exact List.mem_cons_self)
  have hmaker : units (Velox.trade p t.orders (headTrade p c t.orders)) c = 0 := by
    rw [units_headTrade_maker hcp, min_eq_left hle, Nat.sub_self]
  have hsame : ∀ q ∈ t.level.popHead.ring,
      Velox.trade p t.orders (headTrade p c t.orders) q = t.orders q := fun q hm =>
    headTrade_other hring h.wf.nodup hpt hm
  have hu := used_popHead hne
  obtain ⟨k, hk⟩ := h.wf.counted
  rw [fillHead_eq (isLive_iff.1 hlive).2 hq, if_pos hmaker]
  refine ⟨h.trade hring hcp hlive hq rfl rfl ?_ ⟨[c], hring⟩ ?_
    ⟨hwf.nonnull, hwf.nodup, hwf.counted⟩ ?_, by rw [hu]; exact Nat.lt_succ_self _⟩
  · change t.level.mSize - 1 + t.level.used = t.level.mSize + t.level.popHead.used
    omega
  · exact fun q hm => (same_live (hsame q hm)).1
  · have hqueue := liveQueue_congr fun q hm => same_live (hsame q hm)
    have hpair : (headTrade p c t.orders).pair = (c, units t.orders c) :=
      Prod.ext rfl ((headTrade_quantity p c t.orders).trans (min_eq_left hle))
    rw [hring, liveQueue_cons_live hlive, consume_whole hq.ne' rfl hle,
      units_headTrade_incoming hcp, min_eq_left hle, hpair]
    rw [ring_withTotal, hqueue]

theorem Matched.part (h : Matched p s t fs) (hp : p ∉ s.level.ring)
    (hne : t.level.mHead ≠ t.level.mTail) (hc : t.level.mBuffer t.level.mHead = some c)
    (hlive : isLive t.orders c = true) (hq : 0 < units t.orders p)
    (hlt : units t.orders p < units t.orders c) :
    Matched p s (fillHead p c t) (fs ++ [headTrade p c t.orders]) ∧
      units (fillHead p c t).orders p = 0 := by
  obtain ⟨c', hc', hring, -⟩ := h.wf.uncons hne
  obtain rfl : c = c' := Option.some.inj (hc.symm.trans hc')
  have hpt := h.not_mem hp
  have hcp : c ≠ p := fun he => hpt (by rw [hring, he]; exact List.mem_cons_self)
  have hmaker : units (Velox.trade p t.orders (headTrade p c t.orders)) c =
      units t.orders c - units t.orders p := by
    rw [units_headTrade_maker hcp, min_eq_right hlt.le]
  have hlive' : isLive (Velox.trade p t.orders (headTrade p c t.orders)) c = true := by
    refine isLive_iff.2 ⟨?_, by rw [hmaker]; omega⟩
    rw [trade_static (g := Order.isActive) (fun _ _ => rfl)]
    exact (isLive_iff.1 hlive).1
  have hincoming : units (Velox.trade p t.orders (headTrade p c t.orders)) p = 0 := by
    rw [units_headTrade_incoming hcp, min_eq_right hlt.le, Nat.sub_self]
  have hsame : ∀ q ∈ t.level.popHead.ring,
      Velox.trade p t.orders (headTrade p c t.orders) q = t.orders q := fun q hm =>
    headTrade_other hring h.wf.nodup hpt hm
  rw [fillHead_eq (isLive_iff.1 hlive).2 hq, if_neg (by rw [hmaker]; omega)]
  refine ⟨h.trade hring hcp hlive hq rfl rfl rfl ⟨[], rfl⟩ ?_
    ⟨h.wf.nonnull, h.wf.nodup, h.wf.counted⟩ ?_, hincoming⟩
  · intro q hm
    rcases List.mem_cons.1 (hring ▸ hm : q ∈ c :: t.level.popHead.ring) with rfl | hm
    · rw [hlive', hlive]
    · exact (same_live (hsame q hm)).1
  · have hqueue := liveQueue_congr fun q hm => same_live (hsame q hm)
    have hpair : (headTrade p c t.orders).pair = (c, units t.orders p) :=
      Prod.ext rfl ((headTrade_quantity p c t.orders).trans (min_eq_right hlt.le))
    rw [ring_withTotal, hring, liveQueue_cons_live hlive, liveQueue_cons_live hlive', hqueue,
      hincoming, consume_part hq.ne' rfl hlt, hpair, hmaker]
    simp only [consume_zero]

/-- One turn of the loop extends what matching has done; a turn that goes round again has freed a
slot. -/
theorem matchOrderBody_spec (h : Matched p s t fs) (hp : p ∉ s.level.ring) :
    ∃ r, matchOrderBody p t = some r ∧
      (∀ u, r = .inl u → (∃ gs, Matched p s u gs) ∧ (units u.orders p = 0 ∨ u.level.ring = [])) ∧
      ∀ u, r = .inr u → (∃ gs, Matched p s u gs) ∧ u.level.used < t.level.used := by
  by_cases hzero : units t.orders p = 0
  · refine ⟨.inl t, ?_, fun u hu => ?_, fun u hu => by cases hu⟩
    · rw [matchOrderBody, if_pos (units_eq_zero_iff.1 hzero)]
    · cases hu
      exact ⟨⟨fs, h⟩, .inl hzero⟩
  obtain ⟨hswept, hexit⟩ := advance_spec t.orders h.wf
  have hm := h.sweep hswept
  have hbody : matchOrderBody p t = _ :=
    if_neg fun he => hzero (units_eq_zero_iff.2 he)
  have hused : (t.level.advance t.orders).used ≤ t.level.used := by
    obtain ⟨ps, hps, -⟩ := hswept.dead
    rw [hswept.wf.used_eq_length, h.wf.used_eq_length, hps, List.length_append]
    omega
  by_cases hempty : (t.level.advance t.orders).mHead = (t.level.advance t.orders).mTail
  · refine ⟨.inl _, by rw [hbody, if_pos hempty], fun u hu => ?_, fun u hu => by cases hu⟩
    cases hu
    exact ⟨⟨fs, hm⟩, .inr (ring_empty hempty)⟩
  obtain ⟨c, hc, -, -⟩ := hm.wf.uncons hempty
  have hlive : isLive t.orders c = true := by
    have := hexit.resolve_left hempty
    rwa [show (t.level.advance t.orders).mBuffer _ = some c from hc, Option.any_some] at this
  have hq : 0 < units t.orders p := Nat.pos_of_ne_zero hzero
  have hturn := turn_fills (units_eq_zero_iff.not.1 hzero) hempty hc hlive
  rcases Nat.lt_or_ge (units t.orders p) (units t.orders c) with hlt | hle
  · obtain ⟨hm', hdone⟩ := hm.part hp hempty hc hlive hq hlt
    refine ⟨.inl _, by rw [hturn, if_pos (units_eq_zero_iff.1 hdone)], fun u hu => ?_,
      fun u hu => by cases hu⟩
    cases hu
    exact ⟨⟨_, hm'⟩, .inl hdone⟩
  · obtain ⟨hm', hfreed⟩ := hm.whole hp hempty hc hlive hq hle
    by_cases hdone :
      units (PriceLevel.fillHead p c { t with level := t.level.advance t.orders }).orders p = 0
    · refine ⟨.inl _, by rw [hturn, if_pos (units_eq_zero_iff.1 hdone)], fun u hu => ?_,
        fun u hu => by cases hu⟩
      cases hu
      exact ⟨⟨_, hm'⟩, .inl hdone⟩
    · refine ⟨.inr _, by rw [hturn, if_neg fun he => hdone (units_eq_zero_iff.2 he)],
        fun u hu => by (cases hu), fun u hu => ?_⟩
      cases hu
      exact ⟨⟨_, hm'⟩, Nat.lt_of_lt_of_le hfreed hused⟩

/-- Matching against a level that does not hold the incoming order ends, having drawn on its live
orders from the oldest on; what it wants beyond them empties the ring. -/
theorem matchOrder_spec (h : s.level.Wf) (hp : p ∉ s.level.ring) (hq : 0 < units s.orders p) :
    ∃ t fs, matchOrder (some p) s =
        some (if (t.orders p).remainingQuantity > 0 then some p else none, t) ∧
      Matched p s t fs ∧ (units t.orders p = 0 ∨ t.level.ring = []) := by
  have hrun := Loop.run_total (matchOrderBody p) (I := fun t => ∃ fs, Matched p s t fs)
    (P := fun t => (∃ fs, Matched p s t fs) ∧ (units t.orders p = 0 ∨ t.level.ring = []))
    (μ := fun t => t.level.used) (fun t ⟨fs, ht⟩ => matchOrderBody_spec ht hp)
    ⟨[], Matched.refl h⟩ (Nat.lt_succ_self s.level.used)
  obtain ⟨t, ht, ⟨fs, hm⟩, hexit⟩ := hrun
  refine ⟨t, fs, ?_, hm, hexit⟩
  have hne : ¬ (s.orders p).remainingQuantity = 0 := fun he => by
    rw [← units_eq_zero_iff] at he
    omega
  rw [matchOrder]
  simp only [if_neg hne, ht, Option.map_some]

end Velox.PriceLevel
