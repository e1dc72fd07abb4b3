import Velox.LevelMatching

namespace Velox
set_option autoImplicit true

open PriceLevel

/-- The slot-dropping branch of `match_order` is taken: the head slot that `advance` has stopped at
is null, inactive or without quantity. -/
def LevelRun.DropsSlot (s : LevelRun) (incoming : OrderPtr) : Prop :=
  (s.orders incoming).remainingQuantity ≠ 0 ∧
    (s.level.advance s.orders).mHead ≠ (s.level.advance s.orders).mTail ∧
    ∀ current ∈ (s.level.advance s.orders).mBuffer (s.level.advance s.orders).mHead,
      (s.orders current).isActive = false ∨ (s.orders current).remainingQuantity = 0

/-- The fill quantity of a turn that gets as far as the head order. -/
def LevelRun.fillQuantity (s : LevelRun) (incoming : OrderPtr) : Option UInt32 :=
  if (s.level.advance s.orders).mHead = (s.level.advance s.orders).mTail then none
  else ((s.level.advance s.orders).mBuffer (s.level.advance s.orders).mHead).map fun current =>
    min (s.orders current).remainingQuantity (s.orders incoming).remainingQuantity

/-- Where a turn ends, leaving the loop or not. -/
def LevelRun.after : LevelRun ⊕ LevelRun → LevelRun := Sum.elim id id

namespace PriceLevel

variable {orders : OrderHeap} {lvl u : PriceLevel} {s t : LevelRun} {p c : OrderPtr}
  {r : LevelRun ⊕ LevelRun}

theorem used_eq_length (lvl : PriceLevel) : lvl.used = lvl.slots.length :=
  (Ring.length_window ..).symm

theorem popHead_suffix (h : lvl.mHead ≠ lvl.mTail) : lvl.popHead.slots <:+ lvl.slots := by
  rw [slots_popHead h]
  exact List.suffix_cons ..

/-- `advance` on any ring: it ends, at a live order or with no slot in use, and only drops slots off
the front. -/
theorem advance_any (orders : OrderHeap) (lvl : PriceLevel) :
    Loop.run (advanceBody orders) (lvl.used + 1) lvl = some (lvl.advance orders) ∧
      (lvl.advance orders).slots <:+ lvl.slots ∧
      ((lvl.advance orders).mHead ≠ (lvl.advance orders).mTail →
        ((lvl.advance orders).mBuffer (lvl.advance orders).mHead).any (isLive orders) = true) := by
  obtain ⟨t, ht, hpost⟩ := Loop.run_total (advanceBody orders) (I := fun t => t.slots <:+ lvl.slots)
    (μ := used) (P := fun t => t.slots <:+ lvl.slots ∧
      (t.mHead ≠ t.mTail → (t.mBuffer t.mHead).any (isLive orders) = true))
    (by
      intro t ht
      simp only [advanceBody]
      split_ifs with hempty hlive
      · refine ⟨_, rfl, fun u hu => ?_, fun u hu => by cases hu⟩
        cases hu
        exact ⟨ht, fun hne => absurd hempty hne⟩
      · refine ⟨_, rfl, fun u hu => ?_, fun u hu => by cases hu⟩
        cases hu
        exact ⟨ht, fun _ => hlive⟩
      · refine ⟨_, rfl, fun u hu => by (cases hu), fun u hu => ?_⟩
        cases hu
        exact ⟨(popHead_suffix hempty).trans ht, by rw [used_popHead hempty]; omega⟩)
    (List.suffix_refl _) (Nat.lt_succ_self lvl.used)
  have hadv : lvl.advance orders = t := by rw [advance, ht, Option.getD_some]
  rw [hadv]
  exact ⟨ht, hpost⟩

theorem advance_suffix (orders : OrderHeap) (lvl : PriceLevel) :
    (lvl.advance orders).slots <:+ lvl.slots := (advance_any orders lvl).2.1

theorem advance_used_le (orders : OrderHeap) (lvl : PriceLevel) :
    (lvl.advance orders).used ≤ lvl.used := by
  rw [used_eq_length, used_eq_length]
  exact (advance_suffix orders lvl).length_le

theorem advance_head (h : (lvl.advance orders).mHead ≠ (lvl.advance orders).mTail) :
    ∃ c, (lvl.advance orders).mBuffer (lvl.advance orders).mHead = some c ∧
      isLive orders c = true := by
  have hlive := (advance_any orders lvl).2.2 h
  rwa [Option.any_eq_true] at hlive

theorem not_dropsSlot : ¬ s.DropsSlot p := by
  rintro ⟨-, hne, hdead⟩
  obtain ⟨c, hc, hlive⟩ := advance_head hne
  exact not_dead_of_isLive hlive (hdead c hc)

theorem fillQuantity_pos (hq : (s.orders p).remainingQuantity ≠ 0) :
    ∀ fill ∈ s.fillQuantity p, 0 < fill := by
  intro fill hfill
  rw [LevelRun.fillQuantity] at hfill
  split at hfill
  · cases hfill
  · rename_i hne
    obtain ⟨c, hc, hlive⟩ := advance_head hne
    rw [hc] at hfill
    cases hfill
    change 0 < (headTrade p c s.orders).quantity
    rw [UInt32.lt_iff_toNat_lt, headTrade_quantity]
    refine lt_min (isLive_iff.1 hlive).2 (Nat.pos_of_ne_zero fun h => hq ?_)
    exact units_eq_zero_iff.1 h

/-- A turn on an order with quantity: no slot is left in use, or the head order is traded. -/
theorem turn_cases (hq : (s.orders p).remainingQuantity ≠ 0) :
    (s.level.advance s.orders).mHead = (s.level.advance s.orders).mTail ∧
        matchOrderBody p s = some (.inl { s with level := s.level.advance s.orders }) ∨
      ∃ c, (s.level.advance s.orders).mHead ≠ (s.level.advance s.orders).mTail ∧
        (s.level.advance s.orders).mBuffer (s.level.advance s.orders).mHead = some c ∧
        isLive s.orders c = true ∧
        matchOrderBody p s =
          if ((fillHead p c { s with level := s.level.advance s.orders }).orders
            p).remainingQuantity = 0 then
            some (.inl (fillHead p c { s with level := s.level.advance s.orders }))
          else some (.inr (fillHead p c { s with level := s.level.advance s.orders })) := by
  by_cases hempty : (s.level.advance s.orders).mHead = (s.level.advance s.orders).mTail
  · exact .inl ⟨hempty, by rw [matchOrderBody, if_neg hq]; exact if_pos hempty⟩
  · obtain ⟨c, hc, hlive⟩ := advance_head hempty
    exact .inr ⟨c, hempty, hc, hlive, turn_fills hq hempty hc hlive⟩

section Fill

variable (hne : s.level.mHead ≠ s.level.mTail) (hc : s.level.mBuffer s.level.mHead = some c)
  (hlive : isLive s.orders c = true) (hq : (s.orders p).remainingQuantity ≠ 0)
include hne hlive hq

theorem fillHead_suffix : (fillHead p c s).level.slots <:+ s.level.slots := by
  rw [fillHead_eq (isLive_iff.1 hlive).2 (Nat.pos_of_ne_zero (units_eq_zero_iff.not.2 hq))]
  split
  · exact popHead_suffix hne
  · exact List.suffix_refl _

include hc

theorem fillHead_progress (hp : some p ∉ s.level.slots) :
    ((fillHead p c s).orders p).remainingQuantity = 0 ∨
      (fillHead p c s).level.used < s.level.used := by
  have hcp : c ≠ p := by
    rintro rfl
    rw [slots_popHead hne, hc] at hp
    exact hp List.mem_cons_self
  have hpos : 0 < units s.orders p := Nat.pos_of_ne_zero (units_eq_zero_iff.not.2 hq)
  rw [fillHead_eq (isLive_iff.1 hlive).2 hpos]
  rcases Nat.le_total (units s.orders p) (units s.orders c) with hle | hle
  · refine .inl (units_eq_zero_iff.1 ?_)
    rw [units_headTrade_incoming hcp, Nat.min_eq_right hle, Nat.sub_self]
  · have hgone : units (trade p s.orders (headTrade p c s.orders)) c = 0 := by
      rw [units_headTrade_maker hcp, Nat.min_eq_left hle, Nat.sub_self]
    refine .inr ?_
    rw [if_pos hgone, used_popHead hne]
    exact Nat.lt_succ_self _

end Fill

theorem turn_suffix (hr : matchOrderBody p s = some r) :
    (LevelRun.after r).level.slots <:+ s.level.slots := by
  by_cases hq : (s.orders p).remainingQuantity = 0
  · rw [matchOrderBody, if_pos hq] at hr
    cases hr
    exact List.suffix_refl _
  · rcases turn_cases hq with ⟨-, he⟩ | ⟨c, hne, -, hlive, he⟩
    · rw [he] at hr
      cases hr
      exact advance_suffix ..
    · have hfill := fillHead_suffix (s := { s with level := s.level.advance s.orders }) hne hlive hq
      have hafter : LevelRun.after r =
          fillHead p c { s with level := s.level.advance s.orders } := by
        rw [he] at hr
        split at hr <;> cases hr <;> rfl
      rw [hafter]
      exact hfill.trans (advance_suffix ..)

theorem head_progress (hp : some p ∉ s.level.slots) (hq : (s.orders p).remainingQuantity ≠ 0)
    (hne : (s.level.advance s.orders).mHead ≠ (s.level.advance s.orders).mTail)
    (hc : (s.level.advance s.orders).mBuffer (s.level.advance s.orders).mHead = some c)
    (hlive : isLive s.orders c = true) :
    ((fillHead p c { s with level := s.level.advance s.orders }).orders p).remainingQuantity = 0 ∨
      (fillHead p c { s with level := s.level.advance s.orders }).level.used < s.level.used := by
  have hp' : some p ∉ (s.level.advance s.orders).slots :=
    fun hm => hp ((advance_suffix ..).subset hm)
  have hprogress := fillHead_progress (s := { s with level := s.level.advance s.orders }) hne hc
    hlive hq hp'
  exact hprogress.imp_right fun hfree => hfree.trans_le (advance_used_le ..)

theorem turn_progress (hp : some p ∉ s.level.slots) (hq : (s.orders p).remainingQuantity ≠ 0) :
    ∃ r, matchOrderBody p s = some r ∧ (((LevelRun.after r).orders p).remainingQuantity = 0 ∨
      (LevelRun.after r).level.used < s.level.used ∨
        s.level.mHead = s.level.mTail ∧ r.isLeft = true) := by
  rcases turn_cases hq with ⟨hempty, he⟩ | ⟨c, hne, hc, hlive, he⟩
  · refine ⟨_, he, .inr ?_⟩
    by_cases hnone : s.level.mHead = s.level.mTail
    · exact .inr ⟨hnone, rfl⟩
    · have hzero : (s.level.advance s.orders).used = 0 := Ring.used_eq_zero_iff.2 hempty
      have hused : s.level.used ≠ 0 := Ring.used_eq_zero_iff.not.2 hnone
      refine .inl ?_
      change (s.level.advance s.orders).used < _
      omega
  · have hprogress := head_progress hp hq hne hc hlive
    rw [he]
    split
    · rename_i hdone
      exact ⟨_, rfl, .inl hdone⟩
    · exact ⟨_, rfl, hprogress.imp_right .inl⟩

theorem used_lt_of_again (hp : some p ∉ s.level.slots)
    (hr : matchOrderBody p s = some (.inr t)) : t.level.used < s.level.used := by
  by_cases hq : (s.orders p).remainingQuantity = 0
  · rw [matchOrderBody, if_pos hq] at hr
    cases hr
  · rcases turn_cases hq with ⟨-, he⟩ | ⟨c, hne, hc, hlive, he⟩
    · rw [he] at hr
      cases hr
    · rw [he] at hr
      split at hr
      · cases hr
      · rename_i hmore
        cases hr
        exact (head_progress hp hq hne hc hlive).resolve_left hmore

theorem not_mem_of_visits (hp : some p ∉ s.level.slots)
    (ht : Loop.Visits (matchOrderBody p) s t) : some p ∉ t.level.slots :=
  ht.keeps (I := fun t => some p ∉ t.level.slots)
    (fun _ _ hu hr hm => hu ((turn_suffix hr).subset hm)) hp

theorem exists_matchOrder (hp : some p ∉ s.level.slots) :
    ∃ x, matchOrder (some p) s = some x := by
  by_cases hq : (s.orders p).remainingQuantity = 0
  · exact ⟨_, if_pos hq⟩
  · obtain ⟨t, ht, -⟩ := Loop.run_total (matchOrderBody p) (I := fun t => some p ∉ t.level.slots)
      (P := fun _ => True) (μ := fun t => t.level.used)
      (by
        intro t ht
        by_cases hdone : (t.orders p).remainingQuantity = 0
        · exact ⟨_, if_pos hdone, fun _ _ => trivial, fun u hu => by cases hu⟩
        · obtain ⟨r, hr, -⟩ := turn_progress ht hdone
          refine ⟨r, hr, fun _ _ => trivial, ?_⟩
          rintro u rfl
          exact ⟨fun hm => ht ((turn_suffix hr).subset hm), used_lt_of_again ht hr⟩)
      hp (Nat.lt_succ_self s.level.used)
    refine ⟨(if (t.orders p).remainingQuantity > 0 then some p else none, t), ?_⟩
    rw [matchOrder, if_neg hq, ht, Option.map_some]

/-- On every ring that does not hold the incoming order: `advance` ends, at a live order or with no
slot in use; and in every turn of the loop of `match_order` the slot-dropping branch is not taken, the
fill quantity is positive, and the turn finishes the incoming order, frees a slot, or finds no slot in
use and leaves the loop. -/
theorem slot_dropping_dead (hp : some p ∉ s.level.slots)
    (ht : Loop.Visits (matchOrderBody p) s t) :
    (Loop.run (advanceBody t.orders) (t.level.used + 1) t.level = some (t.level.advance t.orders) ∧
      ((t.level.advance t.orders).mHead ≠ (t.level.advance t.orders).mTail →
        ∃ c, (t.level.advance t.orders).mBuffer (t.level.advance t.orders).mHead = some c ∧
          (t.orders c).isActive = true ∧ 0 < (t.orders c).remainingQuantity)) ∧
      ¬ t.DropsSlot p ∧
      ((t.orders p).remainingQuantity ≠ 0 → (∀ fill ∈ t.fillQuantity p, 0 < fill) ∧
        ∃ r, matchOrderBody p t = some r ∧ (((LevelRun.after r).orders p).remainingQuantity = 0 ∨
          (LevelRun.after r).level.used < t.level.used ∨
            t.level.mHead = t.level.mTail ∧ r.isLeft = true)) := by
  refine ⟨⟨(advance_any ..).1, fun hne => ?_⟩, not_dropsSlot, fun hq => ⟨fillQuantity_pos hq, ?_⟩⟩
  · obtain ⟨c, hc, hlive⟩ := advance_head hne
    obtain ⟨hact, hunits⟩ := isLive_iff.1 hlive
    refine ⟨c, hc, hact, ?_⟩
    rwa [UInt32.lt_iff_toNat_lt]
  · exact turn_progress (not_mem_of_visits hp ht) hq

/-- A ring across the end of its buffer: a null slot, a cancelled order, and a live order twice. -/
def mixedRing : LevelRun where
  level := { mPrice := 100, mHead := 126, mTail := 2,
             mBuffer := fun i => if i = 127 then some 1 else if i < 2 then some 2 else none }
  orders := fun q =>
    { quantity := if q = 9 then 8 else 5, remainingQuantity := if q = 9 then 8 else 5,
      status := if q = 1 then .CANCELLED else .NEW }
  fills := []

/-- The first turn fills the live order, the second one sweeps the slot that holds it again. -/
theorem slot_dropping_dead_mixed : ∃ t, Loop.Visits (matchOrderBody 9) mixedRing t ∧
    t.level.slots = [some 2] ∧ ¬ t.DropsSlot 9 ∧
    ∃ r, matchOrderBody 9 t = some r ∧ (LevelRun.after r).level.used < t.level.used := by
  have hp : some 9 ∉ mixedRing.level.slots := by decide +kernel
  have hfirst : (matchOrderBody 9 mixedRing).any (Sum.elim (fun _ => false) fun t =>
      t.level.slots == [some 2] && (t.orders 9).remainingQuantity == 3 &&
        (matchOrderBody 9 t).any fun r => ((LevelRun.after r).orders 9).remainingQuantity == 3) =
      true := by decide +kernel
  obtain ⟨r, hr, hok⟩ := (Option.any_eq_true ..).1 hfirst
  cases r with
  | inl t => cases hok
  | inr t =>
    simp only [Sum.elim_inr, Bool.and_eq_true, beq_iff_eq, Option.any_eq_true] at hok
    obtain ⟨⟨hslots, hrem⟩, r, hr', hleft⟩ := hok
    have ht : Loop.Visits (matchOrderBody 9) mixedRing t := .single hr
    obtain ⟨-, hdrop, hturn⟩ := slot_dropping_dead hp ht
    have hused : t.level.used = 1 := by rw [used_eq_length, hslots]; rfl
    obtain ⟨-, r', hr'', hdone⟩ := hturn (by rw [hrem]; decide)
    obtain rfl := Option.some.inj (hr'.symm.trans hr'')
    refine ⟨t, ht, hslots, hdrop, r, hr', ?_⟩
    rcases hdone with hzero | hfree | ⟨hempty, -⟩
    · rw [hleft] at hzero
      cases hzero
    · exact hfree
    · rw [used, Ring.used_eq_zero_iff.2 hempty] at hused
      cases hused

/-- On a level without orders the first turn neither finishes the incoming order nor frees a slot. -/
theorem turn_on_empty_ring : ¬ ∀ p s t r, some p ∉ s.level.slots →
    Loop.Visits (matchOrderBody p) s t → (t.orders p).remainingQuantity ≠ 0 →
    matchOrderBody p t = some r → ((LevelRun.after r).orders p).remainingQuantity = 0 ∨
      (LevelRun.after r).level.used < t.level.used := by
  intro h
  let s : LevelRun := ⟨{ mPrice := 100 }, fun _ => { quantity := 5, remainingQuantity := 5 }, []⟩
  have hturn := h 0 s s (.inl s) (by decide +kernel) .refl (by decide) rfl
  revert hturn
  decide +kernel

end PriceLevel

end Velox
