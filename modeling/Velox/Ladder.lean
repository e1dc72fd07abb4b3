import Velox.OrderBook
import Velox.LevelMatching

namespace Velox.OrderBook
set_option autoImplicit true

open PriceLevel

variable {b b' : OrderBook} {orders orders' : OrderHeap} {s s' : Bool} {l m : LevelPtr}
  {lvl : PriceLevel} {p q : OrderPtr} {x y z : Int64}

theorem ahead_iff : ahead s x y = true ↔ (s = true ∧ y < x) ∨ (s = false ∧ x < y) := by
  cases s <;>
    simp only [ahead, Bool.false_eq_true, if_true, if_false, decide_eq_true_eq, gt_iff_lt,
      reduceCtorEq, true_and, false_and, or_false, false_or]

@[simp] theorem ahead_irrefl (s : Bool) (x : Int64) : ahead s x x = false := by
  cases h : ahead s x x with
  | false => rfl
  | true =>
    rw [ahead_iff] at h
    rcases h with ⟨-, h⟩ | ⟨-, h⟩
    · exact absurd h Int64.lt_irrefl
    · exact absurd h Int64.lt_irrefl

theorem ahead_ne (h : ahead s x y = true) : x ≠ y := by
  rintro rfl
  rw [ahead_irrefl] at h
  cases h

theorem ahead_flip (s : Bool) (x y : Int64) : ahead (!s) x y = ahead s y x := by
  cases s <;> simp only [ahead, Bool.not_true, Bool.not_false, Bool.false_eq_true, if_true,
    if_false, gt_iff_lt]

theorem ahead_trans (h : ahead s x y = true) (h' : ahead s y z = true) : ahead s x z = true := by
  rw [ahead_iff] at *
  rcases h with ⟨rfl, h⟩ | ⟨rfl, h⟩
  · exact .inl ⟨rfl, Int64.lt_trans (by simpa using h') h⟩
  · exact .inr ⟨rfl, Int64.lt_trans h (by simpa using h')⟩

theorem not_ahead_trans (h : ahead s x y = false) (h' : ahead s y z = false) :
    ahead s x z = false := by
  cases s <;> simp only [ahead, Bool.false_eq_true, if_true, if_false, decide_eq_false_iff_not,
    gt_iff_lt, Int64.not_lt] at *
  · exact Int64.le_trans h' h
  · exact Int64.le_trans h h'

theorem ahead_of_ne (h : x ≠ y) (hn : ahead s x y = false) : ahead s y x = true := by
  rw [← Bool.not_eq_true, ahead_iff] at hn
  rw [ahead_iff]
  rcases Int64.lt_or_lt_of_ne h with hlt | hlt
  · cases s with
    | true => exact .inl ⟨rfl, hlt⟩
    | false => exact absurd (.inr ⟨rfl, hlt⟩) hn
  · cases s with
    | true => exact absurd (.inl ⟨rfl, hlt⟩) hn
    | false => exact .inr ⟨rfl, hlt⟩

theorem ahead_asymm (h : ahead s x y = true) : ahead s y x = false := by
  cases hn : ahead s y x with
  | false => rfl
  | true => exact absurd (ahead_trans h hn) (by rw [ahead_irrefl]; exact Bool.false_ne_true)

def priceAt (b : OrderBook) (l : LevelPtr) : Int64 := (b.level l).mPrice

/-- The two sorted sides, the price map and the rings of a book fit together: the levels in memory
are those of the two sides, sorted and none of them on both, the map finds exactly these, and every
ring is in working order and holds only orders of its side at its price, the active ones with
something left to fill. -/
structure Shelves (b : OrderBook) (orders : OrderHeap) : Prop where
  alloc : ∀ s, ∀ l ∈ b.levels s, b.store l ≠ none
  stored : ∀ l, b.store l ≠ none → ∃ s, l ∈ b.levels s
  unused : ∀ l, b.nextLevel ≤ l → b.store l = none
  sorted : ∀ s, (b.levels s).Pairwise fun l m => ahead s (b.priceAt l) (b.priceAt m) = true
  apart : ∀ s, ∀ l ∈ b.levels s, l ∉ b.levels (!s)
  mapped : ∀ x l, b.mPriceToLevel x = some l ↔ (∃ s, l ∈ b.levels s) ∧ b.priceAt l = x
  wf : ∀ s, ∀ l ∈ b.levels s, (b.level l).Wf
  nonempty : ∀ s, ∀ l ∈ b.levels s, (b.level l).mSize ≠ 0
  resting : ∀ s, ∀ l ∈ b.levels s, ∀ p ∈ (b.level l).ring,
    (orders p).isBuy = s ∧ (orders p).price = b.priceAt l
  unfilled : ∀ s, ∀ l ∈ b.levels s, ∀ p ∈ (b.level l).ring,
    (orders p).isActive = true → 0 < units orders p

/-- The depths, the best prices, the index and the sequence number play no part. -/
theorem Shelves.of_eq (h : Shelves b orders) (hl : ∀ s, b'.levels s = b.levels s)
    (hs : b'.store = b.store) (hm : b'.mPriceToLevel = b.mPriceToLevel)
    (hn : b'.nextLevel = b.nextLevel) : Shelves b' orders := by
  have hlevel := fun l => level_congr l hs
  have hprice : ∀ l, b'.priceAt l = b.priceAt l := fun l => by rw [priceAt, hlevel, priceAt]
  exact
    { alloc := fun s l => by rw [hl, hs]; exact h.alloc s l
      stored := fun l => by simp only [hl, hs]; exact h.stored l
      unused := fun l => by rw [hn, hs]; exact h.unused l
      sorted := fun s => by simp only [hl, hprice]; exact h.sorted s
      apart := fun s => by simp only [hl]; exact h.apart s
      mapped := fun x l => by simp only [hl, hprice, hm]; exact h.mapped x l
      wf := fun s l => by rw [hl, hlevel]; exact h.wf s l
      nonempty := fun s l => by rw [hl, hlevel]; exact h.nonempty s l
      resting := fun s l => by rw [hl, hlevel, hprice]; exact h.resting s l
      unfilled := fun s l => by rw [hl, hlevel]; exact h.unfilled s l }

namespace Shelves

variable (h : Shelves b orders)
include h

theorem side_unique (hl : l ∈ b.levels s) (hl' : l ∈ b.levels s') : s = s' := by
  by_contra hne
  have hs : s' = !s := by cases s <;> cases s' <;> simp_all only [Bool.not_false, Bool.not_true, not_true]
  subst hs
  exact h.apart s l hl hl'

theorem nodup (s : Bool) : (b.levels s).Nodup := by
  apply (h.sorted s).imp
  rintro l m hlm rfl
  rw [ahead_irrefl] at hlm
  cases hlm

theorem ptr_unique (hl : l ∈ b.levels s) (hm : m ∈ b.levels s') (he : b.priceAt l = b.priceAt m) :
    l = m :=
  Option.some.inj (((h.mapped _ l).2 ⟨⟨s, hl⟩, rfl⟩).symm.trans ((h.mapped _ m).2 ⟨⟨s', hm⟩, he.symm⟩))

theorem ring_unique (hl : l ∈ b.levels s) (hm : m ∈ b.levels s') (hp : p ∈ (b.level l).ring)
    (hp' : p ∈ (b.level m).ring) : l = m :=
  h.ptr_unique hl hm ((h.resting s l hl p hp).2.symm.trans (h.resting s' m hm p hp').2)

theorem ne_nextLevel (hl : l ∈ b.levels s) : l ≠ b.nextLevel := by
  rintro rfl
  exact h.alloc s _ hl (h.unused _ le_rfl)

theorem orders_congr (hsame : ∀ s, ∀ l ∈ b.levels s, ∀ p ∈ (b.level l).ring,
      (orders' p).isBuy = (orders p).isBuy ∧ (orders' p).price = (orders p).price ∧
      ((orders' p).isActive = true → (orders p).isActive = true ∧ units orders' p = units orders p)) :
    Shelves b orders' :=
  { h with
    resting := fun s l hl p hp => by
      obtain ⟨hs, hx, -⟩ := hsame s l hl p hp
      rw [hs, hx]
      exact h.resting s l hl p hp
    unfilled := fun s l hl p hp ha => by
      obtain ⟨ha', hu⟩ := (hsame s l hl p hp).2.2 ha
      rw [hu]
      exact h.unfilled s l hl p hp ha' }

section Change

variable (hside : ∀ p, (orders' p).isBuy = (orders p).isBuy)
  (hprice : ∀ p, (orders' p).price = (orders p).price)
  (hopen : ∀ s, ∀ m ∈ b.levels s, m ≠ l → ∀ p ∈ (b.level m).ring,
    (orders' p).isActive = true → 0 < units orders' p)
include hside hprice hopen

theorem replace (hl : l ∈ b.levels s) (hls : ∀ s, b'.levels s = b.levels s)
    (hstore : b'.store = Function.update b.store l (some lvl))
    (hmap : b'.mPriceToLevel = b.mPriceToLevel) (hnext : b'.nextLevel = b.nextLevel)
    (hlp : lvl.mPrice = b.priceAt l) (hwf : lvl.Wf) (hsize : lvl.mSize ≠ 0)
    (hring : ∀ p ∈ lvl.ring, (orders p).isBuy = s ∧ (orders p).price = b.priceAt l ∧
      ((orders' p).isActive = true → 0 < units orders' p)) : Shelves b' orders' := by
  have hself : b'.level l = lvl := by
    rw [level, hstore, Function.update_self, Option.getD_some]
  have hother : ∀ m, m ≠ l → b'.level m = b.level m := fun m hm => by
    rw [level, hstore, Function.update_of_ne hm, level]
  have hpr : ∀ m, b'.priceAt m = b.priceAt m := fun m => by
    by_cases hm : m = l
    · rw [hm, priceAt, hself, hlp]
    · rw [priceAt, hother m hm, priceAt]
  have hs : ∀ {s'}, l ∈ b.levels s' → s' = s := fun hl' => h.side_unique hl' hl
  refine
    { alloc := fun s' m hm => ?_
      stored := fun m hm => ?_
      unused := fun m hm => ?_
      sorted := fun s' => by simp only [hls, hpr]; exact h.sorted s'
      apart := fun s' => by simp only [hls]; exact h.apart s'
      mapped := fun x m => by simp only [hls, hpr, hmap]; exact h.mapped x m
      wf := fun s' m hm => ?_
      nonempty := fun s' m hm => ?_
      resting := fun s' m hm p hp => ?_
      unfilled := fun s' m hm p hp ha => ?_ } <;> try rw [hls] at hm
  · by_cases he : m = l
    · rw [he, hstore, Function.update_self]
      exact Option.some_ne_none _
    · rw [hstore, Function.update_of_ne he]
      exact h.alloc s' m hm
  · by_cases he : m = l
    · exact ⟨s, by rw [he, hls]; exact hl⟩
    · rw [hstore, Function.update_of_ne he] at hm
      obtain ⟨s', hm⟩ := h.stored m hm
      exact ⟨s', by rwa [hls]⟩
  · have he : m ≠ l := fun he => h.alloc s l hl (h.unused l (by rw [← he, ← hnext]; exact hm))
    rw [hstore, Function.update_of_ne he]
    exact h.unused m (by rw [← hnext]; exact hm)
  · by_cases he : m = l
    · rw [he, hself]
      exact hwf
    · rw [hother m he]
      exact h.wf s' m hm
  · by_cases he : m = l
    · rw [he, hself]
      exact hsize
    · rw [hother m he]
      exact h.nonempty s' m hm
  · rw [hside, hprice, hpr]
    by_cases he : m = l
    · subst he
      rw [hself] at hp
      obtain ⟨h₁, h₂, -⟩ := hring p hp
      exact ⟨h₁.trans (hs hm).symm, h₂⟩
    · rw [hother m he] at hp
      exact h.resting s' m hm p hp
  · by_cases he : m = l
    · subst he
      rw [hself] at hp
      exact (hring p hp).2.2 ha
    · rw [hother m he] at hp
      exact hopen s' m hm he p hp ha

theorem drop (hl : l ∈ b.levels s) (hls : b'.levels s = (b.levels s).erase l)
    (hls' : b'.levels (!s) = b.levels (!s)) (hstore : b'.store = Function.update b.store l none)
    (hmap : b'.mPriceToLevel = Function.update b.mPriceToLevel (b.priceAt l) none)
    (hnext : b'.nextLevel = b.nextLevel) : Shelves b' orders' := by
  have hmem : ∀ {s' m}, m ∈ b'.levels s' ↔ m ∈ b.levels s' ∧ m ≠ l := by
    intro s' m
    by_cases hs : s' = s
    · subst hs
      rw [hls, (h.nodup s').mem_erase_iff, and_comm]
    · have hs' : s' = !s := Bool.eq_not_of_ne hs
      subst hs'
      rw [hls']
      refine ⟨fun hm => ⟨hm, ?_⟩, fun hm => hm.1⟩
      rintro rfl
      exact hs (h.side_unique hm hl)
  have hother : ∀ {m}, m ≠ l → b'.level m = b.level m := fun hm => by
    rw [level, hstore, Function.update_of_ne hm, level]
  have hpr : ∀ {m}, m ≠ l → b'.priceAt m = b.priceAt m := fun hm => by
    rw [priceAt, hother hm, priceAt]
  refine
    { alloc := fun s' m hm => ?_
      stored := fun m hm => ?_
      unused := fun m hm => ?_
      sorted := fun s' => ?_
      apart := fun s' m hm hm' => ?_
      mapped := fun x m => ?_
      wf := fun s' m hm => ?_
      nonempty := fun s' m hm => ?_
      resting := fun s' m hm p hp => ?_
      unfilled := fun s' m hm p hp ha => ?_ }
  · obtain ⟨hm, he⟩ := hmem.1 hm
    rw [hstore, Function.update_of_ne he]
    exact h.alloc s' m hm
  · have he : m ≠ l := by
      rintro rfl
      rw [hstore, Function.update_self] at hm
      exact hm rfl
    rw [hstore, Function.update_of_ne he] at hm
    obtain ⟨s', hm⟩ := h.stored m hm
    exact ⟨s', hmem.2 ⟨hm, he⟩⟩
  · have he : m ≠ l := fun he => h.alloc s l hl (h.unused l (by rw [← he, ← hnext]; exact hm))
    rw [hstore, Function.update_of_ne he]
    exact h.unused m (by rw [← hnext]; exact hm)
  · have hsub : (b'.levels s').Sublist (b.levels s') := by
      by_cases hs : s' = s
      · rw [hs, hls]
        exact List.erase_sublist
      · rw [Bool.eq_not_of_ne hs, hls']
    refine ((h.sorted s').sublist hsub).imp_of_mem fun hm hm' hlt => ?_
    rwa [hpr (hmem.1 hm).2, hpr (hmem.1 hm').2]
  · exact h.apart s' m (hmem.1 hm).1 (hmem.1 hm').1
  · rw [hmap]
    by_cases hx : x = b.priceAt l
    · subst hx
      rw [Function.update_self]
      refine ⟨fun hn => (by cases hn), ?_⟩
      rintro ⟨⟨s', hm⟩, hx⟩
      obtain ⟨hm, he⟩ := hmem.1 hm
      rw [hpr he] at hx
      exact absurd (h.ptr_unique hm hl hx) he
    · rw [Function.update_of_ne hx, h.mapped]
      constructor
      · rintro ⟨⟨s', hm⟩, rfl⟩
        have he : m ≠ l := fun he => hx (by rw [he])
        exact ⟨⟨s', hmem.2 ⟨hm, he⟩⟩, hpr he⟩
      · rintro ⟨⟨s', hm⟩, rfl⟩
        obtain ⟨hm, he⟩ := hmem.1 hm
        exact ⟨⟨s', hm⟩, (hpr he).symm⟩
  · obtain ⟨hm, he⟩ := hmem.1 hm
    rw [hother he]
    exact h.wf s' m hm
  · obtain ⟨hm, he⟩ := hmem.1 hm
    rw [hother he]
    exact h.nonempty s' m hm
  · obtain ⟨hm, he⟩ := hmem.1 hm
    rw [hother he] at hp
    rw [hside, hprice, hpr he]
    exact h.resting s' m hm p hp
  · obtain ⟨hm, he⟩ := hmem.1 hm
    rw [hother he] at hp
    exact hopen s' m hm he p hp ha

end Change

theorem insert {A B : List LevelPtr} (hAB : b.levels s = A ++ B)
    (hls : b'.levels s = A ++ b.nextLevel :: B) (hls' : b'.levels (!s) = b.levels (!s))
    (hstore : b'.store = Function.update b.store b.nextLevel (some lvl))
    (hmap : b'.mPriceToLevel = Function.update b.mPriceToLevel lvl.mPrice (some b.nextLevel))
    (hnone : b.mPriceToLevel lvl.mPrice = none) (hnext : b'.nextLevel = b.nextLevel + 1)
    (hA : ∀ a ∈ A, ahead s (b.priceAt a) lvl.mPrice = true)
    (hB : ∀ a ∈ B, ahead s lvl.mPrice (b.priceAt a) = true)
    (hwf : lvl.Wf) (hsize : lvl.mSize ≠ 0)
    (hring : ∀ p ∈ lvl.ring, (orders p).isBuy = s ∧ (orders p).price = lvl.mPrice ∧
      ((orders p).isActive = true → 0 < units orders p)) : Shelves b' orders := by
  have hself : b'.level b.nextLevel = lvl := by
    rw [level, hstore, Function.update_self, Option.getD_some]
  have hother : ∀ {s' m}, m ∈ b.levels s' → b'.level m = b.level m := fun hm => by
    rw [level, hstore, Function.update_of_ne (h.ne_nextLevel hm), level]
  have hpself : b'.priceAt b.nextLevel = lvl.mPrice := by rw [priceAt, hself]
  have hpr : ∀ {s' m}, m ∈ b.levels s' → b'.priceAt m = b.priceAt m := fun hm => by
    rw [priceAt, hother hm, priceAt]
  have hmem : ∀ {s' m}, m ∈ b'.levels s' ↔ m ∈ b.levels s' ∨ (s' = s ∧ m = b.nextLevel) := by
    intro s' m
    by_cases hs : s' = s
    · subst hs
      rw [hls, hAB, List.mem_append, List.mem_cons, List.mem_append]
      tauto
    · have hs' : s' = !s := Bool.eq_not_of_ne hs
      subst hs'
      rw [hls']
      simp only [hs, false_and, or_false]
  have hinA : ∀ {a}, a ∈ A → a ∈ b.levels s := fun ha => hAB ▸ List.mem_append_left _ ha
  have hinB : ∀ {a}, a ∈ B → a ∈ b.levels s := fun ha => hAB ▸ List.mem_append_right _ ha
  refine
    { alloc := fun s' m hm => ?_
      stored := fun m hm => ?_
      unused := fun m hm => ?_
      sorted := fun s' => ?_
      apart := fun s' m hm hm' => ?_
      mapped := fun x m => ?_
      wf := fun s' m hm => ?_
      nonempty := fun s' m hm => ?_
      resting := fun s' m hm p hp => ?_
      unfilled := fun s' m hm p hp ha => ?_ }
  · rcases hmem.1 hm with hm | ⟨-, rfl⟩
    · rw [hstore, Function.update_of_ne (h.ne_nextLevel hm)]
      exact h.alloc s' m hm
    · rw [hstore, Function.update_self]
      exact Option.some_ne_none _
  · by_cases he : m = b.nextLevel
    · exact ⟨s, hmem.2 (.inr ⟨rfl, he⟩)⟩
    · rw [hstore, Function.update_of_ne he] at hm
      obtain ⟨s', hm⟩ := h.stored m hm
      exact ⟨s', hmem.2 (.inl hm)⟩
  · rw [hnext] at hm
    rw [hstore, Function.update_of_ne (Nat.ne_of_gt (Nat.lt_of_succ_le hm))]
    exact h.unused m (Nat.le_of_succ_le hm)
  · by_cases hs : s' = s
    · subst hs
      have hsorted := h.sorted s'
      rw [hAB, List.pairwise_append] at hsorted
      obtain ⟨hsA, hsB, hsAB⟩ := hsorted
      rw [hls, List.pairwise_append, List.pairwise_cons]
      refine ⟨hsA.imp_of_mem fun ha hb hlt => ?_, ⟨fun a ha => ?_, hsB.imp_of_mem fun ha hb hlt => ?_⟩,
        fun a ha c hc => ?_⟩
      · rwa [hpr (hinA ha), hpr (hinA hb)]
      · rw [hpself, hpr (hinB ha)]
        exact hB a ha
      · rwa [hpr (hinB ha), hpr (hinB hb)]
      · rw [hpr (hinA ha)]
        rcases List.mem_cons.1 hc with rfl | hc
        · rw [hpself]
          exact hA a ha
        · rw [hpr (hinB hc)]
          exact hsAB a ha c hc
    · have hs' : s' = !s := Bool.eq_not_of_ne hs
      subst hs'
      rw [hls']
      exact (h.sorted _).imp_of_mem fun ha hb hlt => by rwa [hpr ha, hpr hb]
  · rcases hmem.1 hm with hm | ⟨rfl, rfl⟩
    · rcases hmem.1 hm' with hm' | ⟨-, rfl⟩
      · exact h.apart s' m hm hm'
      · exact h.ne_nextLevel hm rfl
    · rcases hmem.1 hm' with hm' | ⟨hs', -⟩
      · exact h.ne_nextLevel hm' rfl
      · exact Bool.not_ne_self s' hs'
  · rw [hmap]
    by_cases hx : x = lvl.mPrice
    · subst hx
      rw [Function.update_self]
      constructor
      · rintro ⟨⟩
        exact ⟨⟨s, hmem.2 (.inr ⟨rfl, rfl⟩)⟩, hpself⟩
      · rintro ⟨⟨s', hm⟩, hx⟩
        rcases hmem.1 hm with hm | ⟨-, rfl⟩
        · rw [hpr hm] at hx
          rw [(h.mapped _ m).2 ⟨⟨s', hm⟩, hx⟩] at hnone
          cases hnone
        · rfl
    · rw [Function.update_of_ne hx, h.mapped]
      constructor
      · rintro ⟨⟨s', hm⟩, rfl⟩
        exact ⟨⟨s', hmem.2 (.inl hm)⟩, hpr hm⟩
      · rintro ⟨⟨s', hm⟩, rfl⟩
        rcases hmem.1 hm with hm | ⟨-, rfl⟩
        · exact ⟨⟨s', hm⟩, (hpr hm).symm⟩
        · exact absurd hpself hx
  · rcases hmem.1 hm with hm | ⟨-, rfl⟩
    · rw [hother hm]
      exact h.wf s' m hm
    · rwa [hself]
  · rcases hmem.1 hm with hm | ⟨-, rfl⟩
    · rw [hother hm]
      exact h.nonempty s' m hm
    · rwa [hself]
  · rcases hmem.1 hm with hm | ⟨rfl, rfl⟩
    · rw [hother hm] at hp
      rw [hpr hm]
      exact h.resting s' m hm p hp
    · rw [hself] at hp
      rw [hpself]
      exact ⟨(hring p hp).1, (hring p hp).2.1⟩
  · rcases hmem.1 hm with hm | ⟨-, rfl⟩
    · rw [hother hm] at hp
      exact h.unfilled s' m hm p hp ha
    · rw [hself] at hp
      exact (hring p hp).2.2 ha

end Shelves

/-- The two sorted sides, the price map and the rings of a book fit together: the levels in memory
are those of the two sides, sorted and not crossed, the map finds exactly these, and every ring is
in working order and holds only orders of its side at its price, the active ones with something
left to fill. -/
structure Ladder (b : OrderBook) (orders : OrderHeap) : Prop where
  alloc : ∀ s, ∀ l ∈ b.levels s, b.store l ≠ none
  stored : ∀ l, b.store l ≠ none → ∃ s, l ∈ b.levels s
  unused : ∀ l, b.nextLevel ≤ l → b.store l = none
  sorted : ∀ s, (b.levels s).Pairwise fun l m => ahead s (b.priceAt l) (b.priceAt m) = true
  uncrossed : ∀ s, ∀ l ∈ b.levels s, ∀ m ∈ b.levels (!s), ahead s (b.priceAt m) (b.priceAt l) = true
  mapped : ∀ x l, b.mPriceToLevel x = some l ↔ (∃ s, l ∈ b.levels s) ∧ b.priceAt l = x
  wf : ∀ s, ∀ l ∈ b.levels s, (b.level l).Wf
  nonempty : ∀ s, ∀ l ∈ b.levels s, (b.level l).mSize ≠ 0
  resting : ∀ s, ∀ l ∈ b.levels s, ∀ p ∈ (b.level l).ring,
    (orders p).isBuy = s ∧ (orders p).price = b.priceAt l
  unfilled : ∀ s, ∀ l ∈ b.levels s, ∀ p ∈ (b.level l).ring,
    (orders p).isActive = true → 0 < units orders p

theorem ladder_new (symbol : List UInt8) (orders : OrderHeap) :
    Ladder { mSymbol := symbol } orders where
  alloc := fun s l hl => by cases s <;> cases hl
  stored := fun l hl => absurd rfl hl
  unused := fun _ _ => rfl
  sorted := fun s => by cases s <;> exact List.Pairwise.nil
  uncrossed := fun s l hl => by cases s <;> cases hl
  mapped := fun x l => by
    constructor
    · intro h
      cases h
    · rintro ⟨⟨s, hl⟩, -⟩
      cases s <;> cases hl
  wf := fun s l hl => by cases s <;> cases hl
  nonempty := fun s l hl => by cases s <;> cases hl
  resting := fun s l hl => by cases s <;> cases hl
  unfilled := fun s l hl => by cases s <;> cases hl

theorem Shelves.ladder (h : Shelves b orders) (hx : ∀ s, ∀ l ∈ b.levels s, ∀ m ∈ b.levels (!s),
    ahead s (b.priceAt m) (b.priceAt l) = true) : Ladder b orders := { h with uncrossed := hx }

theorem Ladder.shelves (h : Ladder b orders) : Shelves b orders :=
  { h with
    apart := fun s l hl hl' => by
      have := h.uncrossed s l hl l hl'
      rw [ahead_irrefl] at this
      cases this }

theorem Ladder.of_eq (h : Ladder b orders) (hl : ∀ s, b'.levels s = b.levels s)
    (hs : b'.store = b.store) (hm : b'.mPriceToLevel = b.mPriceToLevel)
    (hn : b'.nextLevel = b.nextLevel) : Ladder b' orders := by
  have hprice : ∀ l, b'.priceAt l = b.priceAt l := fun l => by rw [priceAt, level_congr l hs, priceAt]
  refine (h.shelves.of_eq hl hs hm hn).ladder fun s => ?_
  simp only [hl, hprice]
  exact h.uncrossed s

namespace Ladder

variable (h : Ladder b orders)
include h

theorem side_unique (hl : l ∈ b.levels s) (hl' : l ∈ b.levels s') : s = s' :=
  h.shelves.side_unique hl hl'

theorem nodup (s : Bool) : (b.levels s).Nodup := h.shelves.nodup s

theorem ring_unique (hl : l ∈ b.levels s) (hm : m ∈ b.levels s') (hp : p ∈ (b.level l).ring)
    (hp' : p ∈ (b.level m).ring) : l = m := h.shelves.ring_unique hl hm hp hp'

end Ladder

end Velox.OrderBook
