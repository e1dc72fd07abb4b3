import Velox.PriceLevel

namespace Velox.PriceLevel
set_option autoImplicit true

variable {orders : OrderHeap} {lvl t : PriceLevel} {p : OrderPtr}

theorem next_eq (i : Fin maxOrders) : next i = i + 1 := by
  apply Fin.ext
  rw [Ring.val_add_one_eq]
  have h : (next i).val = (i.val + 1) % 128 := Nat.and_two_pow_sub_one_eq_mod (i.val + 1) 7
  have hi := i.isLt
  have hm : maxOrders = 128 := rfl
  rw [h]
  split <;> omega

/-- The ring slots in use, oldest first. -/
def slots (lvl : PriceLevel) : List (Option OrderPtr) := Ring.window lvl.mBuffer lvl.mHead lvl.mTail

/-- The orders in the ring slots in use, cancelled ones included, oldest first. -/
def ring (lvl : PriceLevel) : List OrderPtr := lvl.slots.reduceOption

/-- A ring in working order: no slot in use is null, no order has two slots, and the count is off
by the slots that were lost to wrapping only, 128 at a time. -/
structure Wf (lvl : PriceLevel) : Prop where
  nonnull : lvl.slots = lvl.ring.map some
  nodup : lvl.ring.Nodup
  counted : ∃ k, lvl.mSize = lvl.used + maxOrders * k

theorem slots_empty (h : lvl.mHead = lvl.mTail) : lvl.slots = [] := by
  rw [slots, h, Ring.window_self]

theorem ring_empty (h : lvl.mHead = lvl.mTail) : lvl.ring = [] := by
  rw [ring, slots_empty h]
  rfl

theorem Wf.used_eq_length (h : lvl.Wf) : lvl.used = lvl.ring.length := by
  have hl := congrArg List.length h.nonnull
  rwa [slots, Ring.length_window, List.length_map] at hl

theorem Wf.ring_eq_nil_iff (h : lvl.Wf) : lvl.ring = [] ↔ lvl.mHead = lvl.mTail := by
  rw [← List.length_eq_zero_iff, ← h.used_eq_length]
  exact Ring.used_eq_zero_iff

theorem Wf.ring_of_size (h : lvl.Wf) (hz : lvl.mSize = 0) : lvl.ring = [] := by
  obtain ⟨k, hk⟩ := h.counted
  rw [← List.length_eq_zero_iff, ← h.used_eq_length]
  omega

theorem wf_new (price : Int64) : Wf { mPrice := price } :=
  ⟨rfl, List.nodup_nil, 0, rfl⟩

@[simp] theorem ring_new (price : Int64) : ring { mPrice := price } = [] := rfl

@[simp] theorem used_new (price : Int64) : used { mPrice := price } = 0 := rfl

theorem slots_popHead (h : lvl.mHead ≠ lvl.mTail) :
    lvl.slots = lvl.mBuffer lvl.mHead :: lvl.popHead.slots := by
  simp only [slots, popHead, skipHead, next_eq, Ring.window_pop h, Ring.window_cons h]

theorem used_popHead (h : lvl.mHead ≠ lvl.mTail) : lvl.used = lvl.popHead.used + 1 := by
  simp only [used, popHead, skipHead, next_eq, Ring.used_next h]

theorem Wf.uncons (h : lvl.Wf) (hne : lvl.mHead ≠ lvl.mTail) :
    ∃ p, lvl.mBuffer lvl.mHead = some p ∧ lvl.ring = p :: lvl.popHead.ring ∧ lvl.popHead.Wf := by
  have hs := slots_popHead hne
  rw [h.nonnull] at hs
  obtain ⟨p, ps, hr⟩ := List.exists_cons_of_ne_nil fun hn => hne (h.ring_eq_nil_iff.1 hn)
  rw [hr, List.map_cons, List.cons.injEq] at hs
  obtain ⟨hp, hps⟩ := hs
  have hpop : lvl.popHead.ring = ps := by
    simp only [ring, ← hps, List.reduceOption, List.filterMap_map, Function.id_comp,
      List.filterMap_some]
  refine ⟨p, hp.symm, by rw [hpop, hr], ⟨by rw [hpop, hps], ?_, ?_⟩⟩
  · rw [hpop]
    exact (List.nodup_cons.1 (hr ▸ h.nodup)).2
  · obtain ⟨k, hk⟩ := h.counted
    refine ⟨k, ?_⟩
    have hu := used_popHead hne
    simp only [popHead, skipHead] at hu ⊢
    omega

section AddOrder

variable (hp : (orders p).remainingQuantity ≠ 0)
include hp

theorem addOrder_eq : lvl.addOrder (some p) orders =
    { lvl with
      mBuffer := Function.update lvl.mBuffer lvl.mTail (some p)
      mTail := next lvl.mTail
      mSize := lvl.mSize + 1
      mTotalQuantity := lvl.mTotalQuantity + (orders p).remainingQuantity } := by
  rw [addOrder, if_neg hp]

theorem ring_addOrder (h : lvl.used + 1 < maxOrders) :
    (lvl.addOrder (some p) orders).ring = lvl.ring ++ [p] := by
  simp only [ring, slots, addOrder_eq hp, next_eq, Ring.window_push h, List.reduceOption_append]
  rfl

/-- The order that takes the last free slot makes the whole ring unreachable. -/
theorem ring_addOrder_full (h : lvl.used + 1 = maxOrders) :
    (lvl.addOrder (some p) orders).ring = [] := by
  simp only [ring, slots, addOrder_eq hp, next_eq, Ring.window_push_full h]
  rfl

theorem used_addOrder (h : lvl.used + 1 < maxOrders) :
    (lvl.addOrder (some p) orders).used = lvl.used + 1 := by
  rw [used, addOrder_eq hp, next_eq]
  exact Ring.used_grow h

theorem used_addOrder_full (h : lvl.used + 1 = maxOrders) :
    (lvl.addOrder (some p) orders).used = 0 := by
  rw [used, addOrder_eq hp, next_eq]
  exact Ring.used_wrap h

theorem Wf.addOrder (h : lvl.Wf) (hnew : p ∉ lvl.ring) : (lvl.addOrder (some p) orders).Wf := by
  obtain ⟨k, hk⟩ := h.counted
  have hlt : lvl.used < maxOrders := Ring.used_lt lvl.mHead lvl.mTail
  have hsize : (lvl.addOrder (some p) orders).mSize = lvl.mSize + 1 := by rw [addOrder_eq hp]
  by_cases hfull : lvl.used + 1 = maxOrders
  · have hs : (lvl.addOrder (some p) orders).slots = [] := by
      simp only [slots, addOrder_eq hp, next_eq, Ring.window_push_full hfull]
    have hr := ring_addOrder_full hp hfull
    refine ⟨by rw [hs, hr]; rfl, by rw [hr]; exact List.nodup_nil, k + 1, ?_⟩
    rw [hsize, used_addOrder_full hp hfull, Nat.mul_succ]
    omega
  · have hlt' : lvl.used + 1 < maxOrders := by omega
    have hs : (lvl.addOrder (some p) orders).slots = lvl.slots ++ [some p] := by
      simp only [slots, addOrder_eq hp, next_eq, Ring.window_push hlt']
    have hr := ring_addOrder hp hlt'
    refine ⟨by rw [hs, hr, h.nonnull, List.map_append]; rfl, ?_, k, ?_⟩
    · rw [hr]
      exact List.nodup_append.2 ⟨h.nodup, List.nodup_singleton p,
        fun a ha b hb => by rw [List.mem_singleton.1 hb]; exact fun he => hnew (he ▸ ha)⟩
    · rw [hsize, used_addOrder hp hlt']
      omega

/-- The ring may wrap, but what it still reaches is the old ring and the new order. -/
theorem mem_ring_addOrder {q : OrderPtr} (hq : q ∈ (lvl.addOrder (some p) orders).ring) :
    q = p ∨ q ∈ lvl.ring := by
  have hlt : lvl.used < maxOrders := Ring.used_lt lvl.mHead lvl.mTail
  by_cases hfull : lvl.used + 1 = maxOrders
  · rw [ring_addOrder_full hp hfull] at hq
    cases hq
  · rw [ring_addOrder hp (by omega), List.mem_append, List.mem_singleton] at hq
    exact hq.symm

theorem Wf.occupied_addOrder (h : lvl.Wf) (hfull : lvl.used + 1 = maxOrders) :
    (lvl.addOrder (some p) orders).occupied = maxOrders := by
  have hall : ∀ i ∈ List.finRange maxOrders,
      ((lvl.addOrder (some p) orders).mBuffer i).isSome = true := by
    intro i _
    simp only [addOrder_eq hp]
    by_cases hi : i = lvl.mTail
    · rw [hi, Function.update_self]
      rfl
    · rw [Function.update_of_ne hi]
      have hlt := Ring.used_lt lvl.mHead i
      have hne : Ring.used lvl.mHead i ≠ lvl.used := fun he => hi (Ring.used_inj he)
      have hmem : lvl.mBuffer i ∈ lvl.slots :=
        Ring.mem_cells (show Ring.used lvl.mHead i < lvl.used by omega) lvl.mBuffer
      rw [h.nonnull, List.mem_map] at hmem
      obtain ⟨q, -, hq⟩ := hmem
      rw [← hq]
      rfl
  rw [occupied, List.countP_eq_length.2 hall, List.length_finRange]

theorem Wf.room (h : lvl.Wf) (hroom : (lvl.addOrder (some p) orders).occupied < maxOrders) :
    lvl.used + 1 < maxOrders := by
  have hlt : lvl.used < maxOrders := Ring.used_lt lvl.mHead lvl.mTail
  by_contra hn
  rw [h.occupied_addOrder hp (by omega)] at hroom
  exact absurd hroom (lt_irrefl _)

end AddOrder

/-- The ring with dead orders dropped from the front. -/
structure Swept (orders : OrderHeap) (lvl t : PriceLevel) : Prop where
  price : t.mPrice = lvl.mPrice
  total : t.mTotalQuantity = lvl.mTotalQuantity
  counted : t.mSize + lvl.used = lvl.mSize + t.used
  dead : ∃ ps, lvl.ring = ps ++ t.ring ∧ ∀ p ∈ ps, isLive orders p = false
  wf : t.Wf

theorem Swept.refl (h : lvl.Wf) : Swept orders lvl lvl :=
  ⟨rfl, rfl, rfl, ⟨[], rfl, fun _ hp => by cases hp⟩, h⟩

theorem Swept.pop (h : Swept orders lvl t) (hne : t.mHead ≠ t.mTail)
    (hdead : (t.mBuffer t.mHead).any (isLive orders) = false) : Swept orders lvl t.popHead := by
  obtain ⟨p, hp, hr, hwf⟩ := h.wf.uncons hne
  obtain ⟨ps, hps, hall⟩ := h.dead
  obtain ⟨k, hk⟩ := h.wf.counted
  have hu := used_popHead hne
  rw [hp, Option.any_some] at hdead
  refine ⟨h.price, h.total, ?_, ⟨ps ++ [p], by rw [hps, hr]; simp only [List.append_assoc,
    List.singleton_append], ?_⟩, hwf⟩
  · have hc := h.counted
    simp only [popHead, skipHead] at hu ⊢
    omega
  · intro q hq
    rcases List.mem_append.1 hq with hq | hq
    · exact hall q hq
    · rwa [List.mem_singleton.1 hq]

/-- `advance` sweeps the dead orders off the front and stops at a live one or an empty ring. -/
theorem advance_spec (orders : OrderHeap) (h : lvl.Wf) : Swept orders lvl (lvl.advance orders) ∧
    ((lvl.advance orders).mHead = (lvl.advance orders).mTail ∨
      ((lvl.advance orders).mBuffer (lvl.advance orders).mHead).any (isLive orders) = true) := by
  have hrun := Loop.run_total (advanceBody orders) (I := Swept orders lvl) (μ := used)
    (P := fun t => Swept orders lvl t ∧
      (t.mHead = t.mTail ∨ (t.mBuffer t.mHead).any (isLive orders) = true))
    (by
      intro t ht
      simp only [advanceBody]
      split_ifs with hempty hlive
      · refine ⟨_, rfl, fun u hu => ?_, fun u hu => by cases hu⟩
        cases hu
        exact ⟨ht, .inl hempty⟩
      · refine ⟨_, rfl, fun u hu => ?_, fun u hu => by cases hu⟩
        cases hu
        exact ⟨ht, .inr hlive⟩
      · refine ⟨_, rfl, fun u hu => by (cases hu), fun u hu => ?_⟩
        cases hu
        exact ⟨ht.pop hempty (by simpa using hlive), by rw [used_popHead hempty]; omega⟩)
    (Swept.refl h) (Nat.lt_succ_self lvl.used)
  obtain ⟨t, ht, hpost⟩ := hrun
  rw [advance, ht]
  exact hpost

end Velox.PriceLevel
