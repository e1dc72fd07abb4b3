import Velox.Adding

namespace Velox.OrderBook
set_option autoImplicit true

open PriceLevel

variable {b b' : OrderBook} {orders orders' : OrderHeap} {known : List OrderPtr} {p : OrderPtr}
  {s : Bool} {x : Int64} {q : UInt32} {id : UInt64}

/-- A side of the book that has one level, whose ring holds one order. -/
structure Single (b : OrderBook) (s : Bool) (p : OrderPtr) (x : Int64) (q : UInt32) : Prop where
  level : ∃ l, b.levels s = [l] ∧ b.priceAt l = x ∧ (b.level l).ring = [p] ∧ (b.level l).mSize = 1
  depth : b.depth s = q

structure Bare (b : OrderBook) (s : Bool) : Prop where
  levels : b.levels s = []
  depth : b.depth s = 0

structure SideKept (b b' : OrderBook) (s : Bool) : Prop where
  levels : b'.levels s = b.levels s
  level : ∀ l ∈ b.levels s, b'.level l = b.level l
  depth : b'.depth s = b.depth s

/-- The book is as before, but for a side that is bare now and an id that is forgotten. -/
structure Cleared (b b' : OrderBook) (s : Bool) (id : UInt64) : Prop where
  bare : Bare b' s
  other : SideKept b b' (!s)
  index : b'.mOrderIndex = Function.update b.mOrderIndex id none
  best : b'.updateBestPrices = b'
  symbol : b'.mSymbol = b.mSymbol

theorem Single.kept (h : Single b s p x q) (hk : SideKept b b' s) : Single b' s p x q := by
  obtain ⟨l, hl, hx, hr, hz⟩ := h.level
  have hlevel : b'.level l = b.level l := hk.level l (hl ▸ List.mem_cons_self)
  refine ⟨⟨l, hk.levels.trans hl, ?_, ?_, ?_⟩, hk.depth.trans h.depth⟩
  · rwa [priceAt, hlevel]
  · rwa [hlevel]
  · rwa [hlevel]

theorem Bare.kept (h : Bare b s) (hk : SideKept b b' s) : Bare b' s :=
  ⟨hk.levels.trans h.levels, hk.depth.trans h.depth⟩

theorem Single.best (h : Single b s p x q) (hb : b.updateBestPrices = b) : b.bestPrice s = x := by
  obtain ⟨l, hl, hx, -⟩ := h.level
  rw [← hb, bestPrice_updateBestPrices, hl]
  exact hx

theorem symbol_putLevel (b : OrderBook) (s : Bool) (l : LevelPtr) (lvl : PriceLevel) (q : UInt32) :
    (b.putLevel s l lvl q).mSymbol = b.mSymbol := by
  unfold putLevel
  split <;> cases s <;> rfl

theorem Stocked.single_cancel (h : Stocked b orders known) (hs : Single b s p x q)
    (hi : b.mOrderIndex id = some ⟨x, s, p⟩) (hq : (orders p).remainingQuantity = q) :
    ∃ b', b.cancelOrder id orders = (true, b', cancelIn orders p) ∧
      Stocked b' (cancelIn orders p) known ∧ Cleared b b' s id := by
  obtain ⟨l, hl, hx, hr, hz⟩ := hs.level
  have hmem : l ∈ b.levels s := hl ▸ List.mem_cons_self
  have hwf : (b.level l).Wf := h.shelves.wf s l hmem
  obtain ⟨lvl, hcut, he⟩ := cancelOrder_found hi ((h.shelves.mapped x l).2 ⟨⟨s, hmem⟩, hx⟩) hwf
    (h.indexed id _ hi).2.2.1
  have hempty : lvl.ring = [] := by
    cases hring : lvl.ring with
    | nil => rfl
    | cons r rs =>
      have hrp : r ∈ (b.level l).ring := hcut.ring_sub (hring ▸ List.mem_cons_self)
      rw [hr, List.mem_singleton] at hrp
      have hlive := hcut.front (by rw [hr]; rfl) r (by rw [hring]; rfl)
      rw [isLive_cancelIn, hrp] at hlive
      simp at hlive
  have hsize : lvl.mSize = 0 := by
    have hcount := hcut.counted
    rw [hwf.used_eq_length, hcut.swept.wf.used_eq_length, hr, hempty, hz] at hcount
    simpa using hcount
  have hst := h.cancel id
  rw [he] at hst
  refine ⟨_, he, hst, ⟨?_, ?_⟩, ⟨?_, fun m hm => ?_, ?_⟩, ?_, rfl, ?_⟩
  · change (b.putLevel s l lvl _).levels s = []
    rw [levels_putLevel, if_pos hsize, hl, List.erase_cons_head]
  · change (b.putLevel s l lvl _).depth s = 0
    rw [depth_putLevel, hs.depth, hq, UInt32.sub_self]
  · exact levels_putLevel_of_ne (Bool.not_ne_self s)
  · exact level_putLevel_of_ne fun hml => h.shelves.apart s l hmem (hml ▸ hm)
  · exact depth_putLevel_of_ne (Bool.not_ne_self s)
  · change Function.update (b.putLevel s l lvl _).mOrderIndex id none = _
    rw [index_putLevel]
  · exact symbol_putLevel b s l lvl _

theorem symbol_addOrder (b : OrderBook) (orders : OrderHeap) (p : OrderPtr) :
    (b.addOrder (some p) orders).2.mSymbol = b.mSymbol := by
  have hfound : (b.findOrInsert (orders p).price (orders p).isBuy).2.mSymbol = b.mSymbol := by
    rw [findOrInsert]
    cases b.findLevel (orders p).price (orders p).isBuy with
    | some l => rfl
    | none => cases (orders p).isBuy <;> rfl
  rw [← hfound]
  cases h : (orders p).isBuy <;> simp only [addOrder, h] <;> rfl

theorem index_addOrder (b : OrderBook) (orders : OrderHeap) (p : OrderPtr) :
    (b.addOrder (some p) orders).2.mOrderIndex =
      Function.update b.mOrderIndex (orders p).orderId
        (some ⟨(orders p).price, (orders p).isBuy, p⟩) := by
  rw [← index_findOrInsert b (orders p).price (orders p).isBuy]
  cases h : (orders p).isBuy <;> simp only [addOrder, h] <;> rfl

theorem Stocked.single_add (h : Stocked b orders known) (hp : p ∉ known)
    (hact : (orders p).isActive = true) (hq : (orders p).remainingQuantity ≠ 0)
    (hb : Bare b (orders p).isBuy)
    (hout : ∀ l ∈ b.levels (!(orders p).isBuy), b.priceAt l ≠ (orders p).price)
    (hbest : b.updateBestPrices = b) :
    Stocked (b.addOrder (some p) orders).2 orders (p :: known) ∧
      Single (b.addOrder (some p) orders).2 (orders p).isBuy p (orders p).price
        (orders p).remainingQuantity ∧
      SideKept b (b.addOrder (some p) orders).2 (!(orders p).isBuy) := by
  have hok : b.Placeable (orders p) := by
    refine ⟨hq, hout, fun l hl => ?_, ?_⟩
    · rw [hb.levels] at hl
      cases hl
    · rw [hb.depth]
      simpa using UInt32.toNat_lt (orders p).remainingQuantity
  obtain ⟨hst, -, hadded⟩ := h.added hp hact hbest hok
  refine ⟨hst, ⟨?_, ?_⟩, hadded.levels_other, hadded.level_other, hadded.depth_other⟩
  · have hnone : b.findLevel (orders p).price (orders p).isBuy = none := by
      by_contra hn
      obtain ⟨l, hl⟩ := Option.ne_none_iff_exists'.1 hn
      obtain ⟨⟨s, hs⟩, hx⟩ := (h.shelves.mapped _ l).1 hl
      by_cases he : s = (orders p).isBuy
      · rw [he, hb.levels] at hs
        cases hs
      · rw [Bool.eq_not_of_ne he] at hs
        exact hout l hs hx
    have hfound : (b.findOrInsert (orders p).price (orders p).isBuy).1 = b.nextLevel := by
      rw [findOrInsert, hnone]
      rfl
    have hnew : (b.findOrInsert (orders p).price (orders p).isBuy).2.level b.nextLevel =
        { mPrice := (orders p).price } := by
      rw [findOrInsert, hnone]
      simp only [insertLevel, level_congr _ (store_setLevels _ _ _)]
      exact level_setLevel b b.nextLevel _
    have hlevel := addOrder_level b orders p
    rw [hfound, hnew] at hlevel
    refine ⟨b.nextLevel, ?_, ?_, ?_, ?_⟩
    · rw [addOrder_levels, findOrInsert, hnone]
      simp only [insertLevel, levels_setLevels]
      change (b.levels (orders p).isBuy).takeWhile _ ++
        b.nextLevel :: (b.levels (orders p).isBuy).dropWhile _ = _
      rw [hb.levels]
      rfl
    · rw [priceAt, hlevel, PriceLevel.addOrder_eq hq]
    · rw [hlevel, ring_addOrder hq (by rw [used_new]; decide), ring_new, List.nil_append]
    · rw [hlevel, PriceLevel.addOrder_eq hq]
  · rw [addOrder_depth, hb.depth, UInt32.zero_add]

end Velox.OrderBook
