import Velox.Ladder

namespace Velox.OrderBook
set_option autoImplicit true

open PriceLevel

variable {b : OrderBook} {orders orders' : OrderHeap} {s s' : Bool} {l m : LevelPtr}
  {ls : List LevelPtr} {lvl : PriceLevel} {q : UInt32}

/-- A level of side `s` is changed and `q` leaves the depth; an empty level is taken off. -/
def putLevel (b : OrderBook) (s : Bool) (l : LevelPtr) (lvl : PriceLevel) (q : UInt32) :
    OrderBook :=
  if lvl.mSize = 0 then (((b.setLevel l lvl).subDepth s q).removeLevel l s).deleteLevel l
  else (b.setLevel l lvl).subDepth s q

theorem levels_putLevel : (b.putLevel s l lvl q).levels s =
    if lvl.mSize = 0 then (b.levels s).erase l else b.levels s := by
  unfold putLevel
  split
  · rw [levels_deleteLevel, removeLevel, levels_setLevels, levels_subDepth, levels_setLevel]
  · rw [levels_subDepth, levels_setLevel]

theorem levels_putLevel_of_ne (h : s' ≠ s) : (b.putLevel s l lvl q).levels s' = b.levels s' := by
  rw [Bool.eq_not_of_ne h]
  unfold putLevel
  split <;> cases s <;> rfl

theorem levels_putLevel_front (h : b.levels s = l :: ls) : (b.putLevel s l lvl q).levels s =
    if lvl.mSize = 0 then ls else l :: ls := by
  rw [levels_putLevel, h, List.erase_cons_head]

theorem store_putLevel : (b.putLevel s l lvl q).store =
    Function.update b.store l (if lvl.mSize = 0 then none else some lvl) := by
  unfold putLevel
  split
  · simp only [removeLevel, deleteLevel, store_setLevels, store_subDepth, setLevel,
      Function.update_idem]
  · rw [store_subDepth]
    rfl

theorem level_putLevel (h : lvl.mSize ≠ 0) : (b.putLevel s l lvl q).level l = lvl := by
  rw [level, store_putLevel, Function.update_self, if_neg h, Option.getD_some]

theorem level_putLevel_of_ne (h : m ≠ l) : (b.putLevel s l lvl q).level m = b.level m := by
  rw [level, store_putLevel, Function.update_of_ne h, level]

theorem map_putLevel : (b.putLevel s l lvl q).mPriceToLevel =
    if lvl.mSize = 0 then Function.update b.mPriceToLevel lvl.mPrice none else b.mPriceToLevel := by
  unfold putLevel
  split
  · simp only [removeLevel, deleteLevel, map_setLevels, map_subDepth]
    rw [level_congr l (store_subDepth _ s q), level_setLevel]
    rfl
  · rw [map_subDepth]
    rfl

theorem nextLevel_putLevel : (b.putLevel s l lvl q).nextLevel = b.nextLevel := by
  unfold putLevel
  split <;> cases s <;> rfl

theorem index_putLevel : (b.putLevel s l lvl q).mOrderIndex = b.mOrderIndex := by
  unfold putLevel
  split <;> cases s <;> rfl

theorem sequence_putLevel : (b.putLevel s l lvl q).mSequence = b.mSequence := by
  unfold putLevel
  split <;> cases s <;> rfl

theorem depth_putLevel : (b.putLevel s l lvl q).depth s = b.depth s - q := by
  unfold putLevel
  split <;> cases s <;> rfl

theorem depth_putLevel_of_ne (h : s' ≠ s) : (b.putLevel s l lvl q).depth s' = b.depth s' := by
  rw [Bool.eq_not_of_ne h]
  unfold putLevel
  split <;> cases s <;> rfl

theorem dropFront_eq (h : b.levels s = l :: ls) (hz : lvl.mSize = 0) :
    ((b.setLevel l lvl).subDepth s q).dropFront s l = b.putLevel s l lvl q := by
  have hls : ((b.setLevel l lvl).subDepth s q).levels s = l :: ls := by
    rw [levels_subDepth, levels_setLevel, h]
  rw [putLevel, if_pos hz, dropFront, removeLevel, hls, List.erase_cons_head]
  rfl

section Put

variable (h : Shelves b orders) (hl : l ∈ b.levels s')
include h hl

theorem Shelves.mem_putLevel (hs : lvl.mSize = 0 → s' = s) (s₀ : Bool) :
    m ∈ (b.putLevel s l lvl q).levels s₀ ↔ m ∈ b.levels s₀ ∧ (m = l → lvl.mSize ≠ 0) := by
  by_cases hz : lvl.mSize = 0
  · obtain rfl := hs hz
    simp only [hz, ne_eq, not_true_eq_false, imp_false]
    by_cases he : s₀ = s'
    · subst he
      rw [levels_putLevel, if_pos hz, (h.nodup s₀).mem_erase_iff, and_comm]
    · rw [levels_putLevel_of_ne he]
      exact ⟨fun hm => ⟨hm, fun hml => he (h.side_unique hm (hml ▸ hl))⟩, fun hm => hm.1⟩
  · simp only [ne_eq, hz, not_false_eq_true, implies_true, and_true]
    by_cases he : s₀ = s
    · rw [he, levels_putLevel, if_neg hz]
    · rw [levels_putLevel_of_ne he]

theorem Shelves.putLevel (hs : lvl.mSize = 0 → s' = s) (hprice : lvl.mPrice = b.priceAt l)
    (hwf : lvl.Wf) (hring : ∀ p ∈ lvl.ring, p ∈ (b.level l).ring)
    (hstatic : ∀ p, (orders' p).isBuy = (orders p).isBuy ∧ (orders' p).price = (orders p).price)
    (hopen : ∀ s, ∀ m ∈ b.levels s, ∀ p ∈ (b.level m).ring, (m = l → p ∈ lvl.ring) →
      (orders' p).isActive = true → 0 < units orders' p) :
    Shelves (b.putLevel s l lvl q) orders' := by
  have hother : ∀ s, ∀ m ∈ b.levels s, m ≠ l → ∀ p ∈ (b.level m).ring,
      (orders' p).isActive = true → 0 < units orders' p := fun s m hm hne p hp =>
    hopen s m hm p hp fun he => absurd he hne
  by_cases hz : lvl.mSize = 0
  · obtain rfl := hs hz
    refine h.drop (fun p => (hstatic p).1) (fun p => (hstatic p).2) hother hl ?_ ?_ ?_ ?_
      nextLevel_putLevel
    · rw [levels_putLevel, if_pos hz]
    · exact levels_putLevel_of_ne (Bool.not_ne_self s')
    · rw [store_putLevel, if_pos hz]
    · rw [map_putLevel, if_pos hz, hprice]
  · refine h.replace (fun p => (hstatic p).1) (fun p => (hstatic p).2) hother hl ?_
      (by rw [store_putLevel, if_neg hz]) (by rw [map_putLevel, if_neg hz]) nextLevel_putLevel
      hprice hwf hz ?_
    · intro s₀
      by_cases he : s₀ = s
      · rw [he, levels_putLevel, if_neg hz]
      · exact levels_putLevel_of_ne he
    · intro p hp
      obtain ⟨h₁, h₂⟩ := h.resting s' l hl p (hring p hp)
      exact ⟨h₁, h₂, hopen s' l hl p (hring p hp) fun _ => hp⟩

omit h in
theorem Ladder.of_putLevel (h : Ladder b orders) (hs : lvl.mSize = 0 → s' = s)
    (hprice : lvl.mPrice = b.priceAt l) (hput : Shelves (b.putLevel s l lvl q) orders') :
    Ladder (b.putLevel s l lvl q) orders' := by
  have hold := fun {m} s₀ => (h.shelves.mem_putLevel (m := m) (q := q) hl hs s₀).1
  have hpr : ∀ {m}, (m = l → lvl.mSize ≠ 0) → (b.putLevel s l lvl q).priceAt m = b.priceAt m := by
    intro m hz
    by_cases he : m = l
    · rw [priceAt, he, level_putLevel (hz he), hprice]
    · rw [priceAt, level_putLevel_of_ne he, priceAt]
  refine hput.ladder fun s₀ m hm m' hm' => ?_
  rw [hpr (hold _ hm).2, hpr (hold _ hm').2]
  exact h.uncrossed s₀ m (hold _ hm).1 m' (hold _ hm').1

end Put

end Velox.OrderBook
