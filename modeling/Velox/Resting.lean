import Velox.MatchLoop

namespace Velox.OrderBook
set_option autoImplicit true

open Greedy PriceLevel

variable {b b' : OrderBook} {orders : OrderHeap} {p : OrderPtr} {s : Bool} {l : LevelPtr}
  {lvl : PriceLevel} {A B : List LevelPtr} {x : Int64}

@[simp] theorem depth_findOrInsert (b : OrderBook) (x : Int64) (s s' : Bool) :
    (b.findOrInsert x s).2.depth s' = b.depth s' := by
  unfold findOrInsert
  split
  · rfl
  · rw [insertLevel, depth_setLevels]
    rfl

@[simp] theorem index_findOrInsert (b : OrderBook) (x : Int64) (s : Bool) :
    (b.findOrInsert x s).2.mOrderIndex = b.mOrderIndex := by
  unfold findOrInsert
  split
  · rfl
  · rw [insertLevel, index_setLevels]
    rfl

@[simp] theorem sequence_findOrInsert (b : OrderBook) (x : Int64) (s : Bool) :
    (b.findOrInsert x s).2.mSequence = b.mSequence := by
  unfold findOrInsert
  split
  · rfl
  · cases s <;> rfl

/-- A level is put in the place of a price on a side: `lvl` is what the side has there, an empty
level when it has none, and `lvl'` is what it gets. -/
structure Placed (s : Bool) (x : Int64) (b b' : OrderBook) (l : LevelPtr) (lvl lvl' : PriceLevel)
    (A B : List LevelPtr) : Prop where
  before : (b.levels s = A ++ l :: B ∧ lvl = b.level l) ∨
    (b.levels s = A ++ B ∧ l = b.nextLevel ∧ lvl = { mPrice := x } ∧ b.mPriceToLevel x = none)
  levels : b'.levels s = A ++ l :: B
  other : b'.levels (!s) = b.levels (!s)
  store : b'.store = Function.update b.store l (some lvl')
  map : b'.mPriceToLevel = Function.update b.mPriceToLevel x (some l)
  nextLevel : (l ∈ b.levels s ∧ b'.nextLevel = b.nextLevel) ∨
    (l = b.nextLevel ∧ b'.nextLevel = b.nextLevel + 1)
  price : lvl.mPrice = x
  wf : lvl.Wf
  front : ∀ a ∈ A, ahead s (b.priceAt a) x = true
  back : ∀ a ∈ B, ahead s x (b.priceAt a) = true

theorem Placed.set {lvl' : PriceLevel} (h : Placed s x b b' l lvl lvl' A B) (lvl'' : PriceLevel) :
    Placed s x b (b'.setLevel l lvl'') l lvl lvl'' A B :=
  { h with
    store := by
      rw [setLevel, h.store, Function.update_idem] }

theorem Placed.of_eq {b'' : OrderBook} {lvl' : PriceLevel} (h : Placed s x b b' l lvl lvl' A B)
    (hl : ∀ s, b''.levels s = b'.levels s) (hs : b''.store = b'.store)
    (hm : b''.mPriceToLevel = b'.mPriceToLevel) (hn : b''.nextLevel = b'.nextLevel) :
    Placed s x b b'' l lvl lvl' A B :=
  { h with
    levels := (hl s).trans h.levels
    other := (hl (!s)).trans h.other
    store := hs.trans h.store
    map := hm.trans h.map
    nextLevel := by
      rw [hn]
      exact h.nextLevel }

/-- When the other side has nothing at the price, the level found or inserted is in its place. -/
theorem Shelves.placed (h : Shelves b orders) (hout : ∀ m ∈ b.levels (!s), b.priceAt m ≠ x) :
    ∃ lvl A B, Placed s x b (b.findOrInsert x s).2 (b.findOrInsert x s).1 lvl lvl A B := by
  cases hfind : b.mPriceToLevel x with
  | some l =>
    obtain ⟨⟨s', hl⟩, rfl⟩ := (h.mapped x l).1 hfind
    have hs : s' = s := by
      by_contra hne
      rw [Bool.eq_not_of_ne hne] at hl
      exact hout l hl rfl
    subst hs
    obtain ⟨A, B, hAB⟩ := List.append_of_mem hl
    have hsorted := h.sorted s'
    rw [hAB, List.pairwise_append, List.pairwise_cons] at hsorted
    have hf : b.findOrInsert (b.priceAt l) s' = (l, b) := by
      rw [findOrInsert, findLevel, hfind]
    have hsome : b.store l = some (b.level l) := by
      obtain ⟨lvl, hlvl⟩ := Option.ne_none_iff_exists'.1 (h.alloc s' l hl)
      rw [level, hlvl, Option.getD_some]
    rw [hf]
    exact ⟨b.level l, A, B,
      { before := .inl ⟨hAB, rfl⟩
        levels := hAB
        other := rfl
        store := by rw [← hsome, Function.update_eq_self]
        map := by rw [← hfind, Function.update_eq_self]
        nextLevel := .inl ⟨hl, rfl⟩
        price := rfl
        wf := h.wf s' l hl
        front := fun a ha => hsorted.2.2 a ha l List.mem_cons_self
        back := hsorted.2.1.1 }⟩
  | none =>
    have hf : b.findOrInsert x s =
        (b.nextLevel, (b.newLevel x).2.insertLevel b.nextLevel s) := by
      rw [findOrInsert, findLevel, hfind]
      rfl
    have hnew : (b.newLevel x).2.level b.nextLevel = { mPrice := x } :=
      level_setLevel b b.nextLevel { mPrice := x }
    have hold : ∀ {m}, m ∈ b.levels s → (b.newLevel x).2.level m = b.level m := fun hm =>
      level_setLevel_of_ne b b.nextLevel _ { mPrice := x } (h.ne_nextLevel hm)
    have hprice : ((b.newLevel x).2.level b.nextLevel).price = x := by
      rw [hnew]
      rfl
    have hlevels : ∀ s', (b.newLevel x).2.levels s' = b.levels s' := fun _ => rfl
    let before := fun m => ahead s ((b.newLevel x).2.level m).price x
    have hbefore : ∀ {m}, m ∈ b.levels s → before m = ahead s (b.priceAt m) x := fun hm => by
      change ahead s ((b.newLevel x).2.level _).price x = _
      rw [hold hm]
      rfl
    have hsplit := List.takeWhile_append_dropWhile (p := before) (l := b.levels s)
    have hinB : ∀ {a}, a ∈ (b.levels s).dropWhile before → a ∈ b.levels s := fun ha =>
      hsplit ▸ List.mem_append_right _ ha
    have hbehind : ∀ {a}, a ∈ b.levels s → before a = false → ahead s x (b.priceAt a) = true := by
      intro a ha hn
      rw [hbefore ha] at hn
      refine ahead_of_ne ?_ hn
      intro he
      rw [(h.mapped x a).2 ⟨⟨s, ha⟩, he⟩] at hfind
      cases hfind
    rw [hf]
    refine ⟨{ mPrice := x }, (b.levels s).takeWhile before, (b.levels s).dropWhile before,
      { before := .inr ⟨hsplit.symm, rfl, rfl, hfind⟩
        levels := ?_
        other := ?_
        store := ?_
        map := ?_
        nextLevel := .inr ⟨rfl, ?_⟩
        price := rfl
        wf := wf_new x
        front := fun a ha => ?_
        back := fun a ha => ?_ }⟩
    · rw [insertLevel, levels_setLevels, hprice, hlevels]
    · rw [insertLevel, levels_setLevels_other]
      rfl
    · rw [insertLevel, store_setLevels]
      rfl
    · rw [insertLevel, map_setLevels, hprice]
      rfl
    · rw [insertLevel, nextLevel_setLevels]
      rfl
    · rw [← hbefore (hsplit ▸ List.mem_append_left _ ha)]
      exact List.mem_takeWhile_imp ha
    · cases hB : (b.levels s).dropWhile before with
      | nil =>
        rw [hB] at ha
        cases ha
      | cons c C =>
        have hc : before c = false := by
          have := List.dropWhile_get_zero_not before (b.levels s) (by rw [hB]; exact Nat.succ_pos _)
          simpa [hB] using this
        have hcx := hbehind (hinB (hB ▸ List.mem_cons_self)) hc
        rw [hB] at ha
        rcases List.mem_cons.1 ha with rfl | haC
        · exact hcx
        · have hsorted := h.sorted s
          rw [← hsplit, hB, List.pairwise_append, List.pairwise_cons] at hsorted
          exact ahead_trans hcx (hsorted.2.1.1 a haC)

theorem Placed.level_self {lvl' : PriceLevel} (h : Placed s x b b' l lvl lvl' A B) :
    b'.level l = lvl' := by
  rw [level, h.store, Function.update_self, Option.getD_some]

theorem Placed.level_other {lvl' : PriceLevel} {m : LevelPtr} (h : Placed s x b b' l lvl lvl' A B)
    (hm : m ≠ l) : b'.level m = b.level m := by
  rw [level, h.store, Function.update_of_ne hm, level]

/-- What is left of an incoming order goes to the end of the ring at its price. -/
structure Rested (p : OrderPtr) (s : Bool) (orders : OrderHeap) (b b' : OrderBook) (l : LevelPtr)
    (lvl : PriceLevel) (A B : List LevelPtr) : Prop where
  placed : Placed s (orders p).price b b' l lvl (lvl.addOrder (some p) orders) A B
  index : b'.mOrderIndex = Function.update b.mOrderIndex (orders p).orderId
    (some { price := (orders p).price, isBid := s, orderPtr := p })
  sequence : b'.mSequence = b.mSequence
  depth : b'.depth s = b.depth s + (orders p).remainingQuantity
  depth_other : b'.depth (!s) = b.depth (!s)

theorem Shelves.rested (h : Shelves b orders)
    (hout : ∀ m ∈ b.levels (!s), b.priceAt m ≠ (orders p).price)
    (hq : 0 < units orders p) :
    ∃ l lvl A B, Rested p s orders b (b.rest p s orders) l lvl A B := by
  obtain ⟨lvl, A, B, hp⟩ := h.placed hout
  have hlvl : (b.findOrInsert (orders p).price s).2.level (b.findOrInsert (orders p).price s).1 =
      lvl := hp.level_self
  have hpos : (orders p).remainingQuantity > 0 := UInt32.lt_iff_toNat_lt.2 hq
  have hrest : b.rest p s orders =
      (((b.findOrInsert (orders p).price s).2.setLevel (b.findOrInsert (orders p).price s).1
        (lvl.addOrder (some p) orders)).addDepth s (orders p).remainingQuantity).setIndex
        (orders p).orderId { price := (orders p).price, isBid := s, orderPtr := p } := by
    rw [← hlvl]
    exact if_pos hpos
  rw [hrest]
  refine ⟨_, lvl, A, B, (hp.set _).of_eq ?_ ?_ ?_ ?_, ?_, ?_, ?_, ?_⟩
  · intro s'
    rw [levels_setIndex, levels_addDepth]
  · rw [store_setIndex, store_addDepth]
  · exact map_addDepth _ s _
  · exact nextLevel_addDepth _ s _
  · simp only [setIndex, index_addDepth, setLevel, index_findOrInsert]
  · cases s <;> exact sequence_findOrInsert b _ _
  · have hd : ((b.findOrInsert (orders p).price s).2.setLevel
        (b.findOrInsert (orders p).price s).1 (lvl.addOrder (some p) orders)).depth s =
        b.depth s := depth_findOrInsert b _ s s
    rw [← hd, ← depth_addDepth]
    cases s <;> rfl
  · rw [← depth_findOrInsert b (orders p).price s (!s)]
    cases s <;> rfl

section Rested

variable (hr : Rested p s orders b b' l lvl A B) (h : Shelves b orders)
include hr h

theorem Rested.mem {s' : Bool} {m : LevelPtr} (hm : m ∈ b'.levels s') :
    (s' = s ∧ m = l) ∨ (m ≠ l ∧ m ∈ b.levels s') := by
  have hnd : (A ++ l :: B).Nodup → m ∈ A ++ B → m ≠ l := by
    rintro hnd hmem rfl
    rw [List.nodup_append, List.nodup_cons] at hnd
    rcases List.mem_append.1 hmem with hA | hB
    · exact hnd.2.2 m hA m List.mem_cons_self rfl
    · exact hnd.2.1.1 hB
  by_cases hs : s' = s
  · subst hs
    rw [hr.placed.levels, List.mem_append, List.mem_cons] at hm
    rcases hr.placed.before with ⟨hb, -⟩ | ⟨hb, rfl, -⟩
    · have hn := h.nodup s'
      rw [hb] at hn ⊢
      rcases hm with hm | rfl | hm
      · exact .inr ⟨hnd hn (List.mem_append_left _ hm), List.mem_append_left _ hm⟩
      · exact .inl ⟨rfl, rfl⟩
      · exact .inr ⟨hnd hn (List.mem_append_right _ hm),
          List.mem_append_right _ (List.mem_cons_of_mem _ hm)⟩
    · rcases hm with hm | rfl | hm
      · have hmb : m ∈ b.levels s' := hb ▸ List.mem_append_left _ hm
        exact .inr ⟨h.ne_nextLevel hmb, hmb⟩
      · exact .inl ⟨rfl, rfl⟩
      · have hmb : m ∈ b.levels s' := hb ▸ List.mem_append_right _ hm
        exact .inr ⟨h.ne_nextLevel hmb, hmb⟩
  · rw [Bool.eq_not_of_ne hs, hr.placed.other, ← Bool.eq_not_of_ne hs] at hm
    refine .inr ⟨?_, hm⟩
    rintro rfl
    rcases hr.placed.before with ⟨hb, -⟩ | ⟨-, hl, -⟩
    · exact hs (h.side_unique hm (hb ▸ List.mem_append_right _ List.mem_cons_self))
    · exact h.ne_nextLevel hm hl

omit h in
theorem Rested.not_mem (hp : Unringed b p) : p ∉ lvl.ring := by
  rcases hr.placed.before with ⟨hb, rfl⟩ | ⟨-, -, rfl, -⟩
  · exact hp s l (hb ▸ List.mem_append_right _ List.mem_cons_self)
  · rw [ring_new]
    exact List.not_mem_nil

theorem Rested.shelves (hp : Unringed b p) (hside : (orders p).isBuy = s)
    (hpos : 0 < units orders p) : Shelves b' orders := by
  have hne : (orders p).remainingQuantity ≠ 0 := fun he => by
    rw [← units_eq_zero_iff] at he
    omega
  have hprice : (lvl.addOrder (some p) orders).mPrice = (orders p).price := by
    rw [addOrder_eq hne]
    exact hr.placed.price
  have hsize : (lvl.addOrder (some p) orders).mSize ≠ 0 := by
    rw [addOrder_eq hne]
    exact Nat.succ_ne_zero _
  have hwf := hr.placed.wf.addOrder hne (hr.not_mem hp)
  rcases hr.placed.before with ⟨hb, hlvl⟩ | ⟨hb, hl, hlvl, hnone⟩
  · have hmem : l ∈ b.levels s := hb ▸ List.mem_append_right _ List.mem_cons_self
    have hx : b.priceAt l = (orders p).price := by
      rw [priceAt, ← hlvl]
      exact hr.placed.price
    refine h.replace (show ∀ q, (orders q).isBuy = (orders q).isBuy from fun _ => rfl) (fun _ => rfl)
      (fun s' m hm _ q hq => h.unfilled s' m hm q hq) hmem ?_ hr.placed.store ?_ ?_
      (hprice.trans hx.symm) hwf hsize ?_
    · intro s'
      by_cases hs : s' = s
      · rw [hs, hr.placed.levels, hb]
      · rw [Bool.eq_not_of_ne hs, hr.placed.other]
    · rw [hr.placed.map, ← (h.mapped _ l).2 ⟨⟨s, hmem⟩, hx⟩, Function.update_eq_self]
    · rcases hr.placed.nextLevel with ⟨-, hn⟩ | ⟨hl, -⟩
      · exact hn
      · exact absurd hl (h.ne_nextLevel hmem)
    · intro q hq
      rcases mem_ring_addOrder hne hq with rfl | hq
      · exact ⟨hside, hx.symm, fun _ => hpos⟩
      · rw [hlvl] at hq
        obtain ⟨h₁, h₂⟩ := h.resting s l hmem q hq
        exact ⟨h₁, h₂, h.unfilled s l hmem q hq⟩
  · subst hl
    have hpl := hr.placed
    refine h.insert hb hpl.levels hpl.other hpl.store ?_ ?_ ?_ ?_ ?_ hwf hsize ?_
    · rw [hprice]
      exact hpl.map
    · rw [hprice]
      exact hnone
    · rcases hpl.nextLevel with ⟨hm, -⟩ | ⟨-, hn⟩
      · exact absurd rfl (h.ne_nextLevel hm)
      · exact hn
    · rw [hprice]
      exact hpl.front
    · rw [hprice]
      exact hpl.back
    · intro q hq
      rcases mem_ring_addOrder hne hq with rfl | hq
      · exact ⟨hside, hprice.symm, fun _ => hpos⟩
      · rw [hlvl, ring_new] at hq
        cases hq

omit h in
theorem Rested.ladder (h : Ladder b orders) (hp : Unringed b p) (hside : (orders p).isBuy = s)
    (hpos : 0 < units orders p)
    (hout : ∀ m ∈ b.levels (!s), ahead s (b.priceAt m) (orders p).price = true) :
    Ladder b' orders := by
  have hne : (orders p).remainingQuantity ≠ 0 := fun he => by
    rw [← units_eq_zero_iff] at he
    omega
  have hself : b'.priceAt l = (orders p).price := by
    rw [priceAt, hr.placed.level_self, addOrder_eq hne]
    exact hr.placed.price
  have hpr : ∀ {m}, m ≠ l → b'.priceAt m = b.priceAt m := fun hm => by
    rw [priceAt, hr.placed.level_other hm, priceAt]
  refine (hr.shelves h.shelves hp hside hpos).ladder fun s' m hm m' hm' => ?_
  rcases hr.mem h.shelves hm with ⟨rfl, rfl⟩ | ⟨hml, hm⟩
  · rcases hr.mem h.shelves hm' with ⟨hs, -⟩ | ⟨hml', hm'⟩
    · exact absurd hs (Bool.not_ne_self s')
    · rw [hself, hpr hml']
      exact hout m' hm'
  · rcases hr.mem h.shelves hm' with ⟨hs, rfl⟩ | ⟨hml', hm'⟩
    · subst hs
      rw [hself, hpr hml, ← ahead_flip]
      exact hout m (by rwa [Bool.not_not])
    · rw [hpr hml, hpr hml']
      exact h.uncrossed s' m hm m' hm'

omit h in
theorem Rested.queueOf_eq {ls : List LevelPtr} (hls : ∀ m ∈ ls, m ≠ l) :
    b'.queueOf orders ls = b.queueOf orders ls :=
  queueOf_congr fun m hm => by rw [hr.placed.level_other (hls m hm)]

theorem Rested.ne_place {m : LevelPtr} (hm : m ∈ A ++ B) : m ≠ l := by
  rcases hr.placed.before with ⟨hb, -⟩ | ⟨hb, rfl, -⟩
  · have hnd := h.nodup s
    rw [hb, List.nodup_append, List.nodup_cons] at hnd
    rintro rfl
    rcases List.mem_append.1 hm with hA | hB
    · exact hnd.2.2 m hA m List.mem_cons_self rfl
    · exact hnd.2.1.1 hB
  · exact h.ne_nextLevel (hb ▸ hm)

omit h in
theorem Rested.mem_side {m : LevelPtr} (hm : m ∈ A ++ B) : m ∈ b.levels s := by
  rcases hr.placed.before with ⟨hb, -⟩ | ⟨hb, -⟩
  · rw [hb]
    rcases List.mem_append.1 hm with hm | hm
    · exact List.mem_append_left _ hm
    · exact List.mem_append_right _ (List.mem_cons_of_mem _ hm)
  · rwa [hb]

theorem Rested.other_queue : b'.sideQueue orders (!s) = b.sideQueue orders (!s) := by
  have hne : ∀ m ∈ b.levels (!s), m ≠ l := by
    intro m hm
    rw [← hr.placed.other] at hm
    rcases hr.mem h hm with ⟨hs, -⟩ | ⟨hne, -⟩
    · exact absurd hs (Bool.not_ne_self s)
    · exact hne
  rw [OrderBook.sideQueue, hr.placed.other, hr.queueOf_eq hne]
  rfl

theorem Rested.sideQueue (hlive : isLive orders p = true) (hroom : lvl.used + 1 < maxOrders) :
    ∃ X Y, b.sideQueue orders s = X ++ Y ∧
      b'.sideQueue orders s = X ++ (p, units orders p) :: Y ∧
      (∀ x ∈ X, ahead s (orders p).price (orders x.1).price = false) ∧
      ∀ y ∈ Y, ahead s (orders p).price (orders y.1).price = true := by
  have hne : (orders p).remainingQuantity ≠ 0 := fun he => by
    have := (isLive_iff.1 hlive).2
    rw [← units_eq_zero_iff] at he
    omega
  have hA := fun m hm => hr.ne_place h (m := m) (List.mem_append_left B hm)
  have hB := fun m hm => hr.ne_place h (m := m) (List.mem_append_right A hm)
  have hprice : ∀ {m x}, m ∈ A ++ B → x ∈ liveQueue orders (b.level m).ring →
      (orders x.1).price = b.priceAt m := fun hm hx =>
    (h.resting s _ (hr.mem_side hm) _ (mem_liveQueue.1 hx).1).2
  refine ⟨b.queueOf orders A ++ liveQueue orders lvl.ring, b.queueOf orders B, ?_, ?_, ?_, ?_⟩
  · rw [OrderBook.sideQueue]
    rcases hr.placed.before with ⟨hb, rfl⟩ | ⟨hb, -, rfl, -⟩
    · rw [hb, queueOf_append, queueOf_cons, List.append_assoc]
    · rw [hb, queueOf_append, ring_new, liveQueue_nil, List.append_nil]
  · rw [OrderBook.sideQueue, hr.placed.levels, queueOf_append, queueOf_cons, hr.placed.level_self,
      ring_addOrder hne hroom, liveQueue_append, liveQueue_cons_live hlive, hr.queueOf_eq hA,
      hr.queueOf_eq hB]
    simp only [liveQueue_nil, List.append_assoc, List.cons_append, List.nil_append]
  · intro x hx
    rcases List.mem_append.1 hx with hx | hx
    · obtain ⟨m, hm, hx⟩ := mem_queueOf.1 hx
      rw [hprice (List.mem_append_left _ hm) hx]
      exact ahead_asymm (hr.placed.front m hm)
    · rcases hr.placed.before with ⟨hb, rfl⟩ | ⟨-, -, rfl, -⟩
      · have hl : l ∈ b.levels s := hb ▸ List.mem_append_right _ List.mem_cons_self
        rw [(h.resting s l hl _ (mem_liveQueue.1 hx).1).2, ← hr.placed.price]
        exact ahead_irrefl s _
      · cases hx
  · intro y hy
    obtain ⟨m, hm, hy⟩ := mem_queueOf.1 hy
    rw [hprice (List.mem_append_right _ hm) hy]
    exact hr.placed.back m hm

omit h in
theorem Rested.level_exact (hlive : isLive orders p = true) (hroom : lvl.used + 1 < maxOrders)
    (hlvl : lvl.mSize = lvl.used ∧ lvl.Exact orders) :
    (b'.level l).mSize = (b'.level l).used ∧ (b'.level l).Exact orders := by
  have hne : (orders p).remainingQuantity ≠ 0 := fun he => by
    have := (isLive_iff.1 hlive).2
    rw [← units_eq_zero_iff] at he
    omega
  have hsize : (lvl.addOrder (some p) orders).mSize = lvl.mSize + 1 := by rw [addOrder_eq hne]
  have htotal : (lvl.addOrder (some p) orders).mTotalQuantity =
      lvl.mTotalQuantity + (orders p).remainingQuantity := by rw [addOrder_eq hne]
  have hunits : UInt32.ofNat (units orders p) = (orders p).remainingQuantity := UInt32.ofNat_toNat
  rw [hr.placed.level_self]
  refine ⟨by rw [hsize, hlvl.1, used_addOrder hne hroom], ?_⟩
  rw [PriceLevel.Exact, htotal, hlvl.2, ring_addOrder hne hroom, liveQueue_append,
    liveQueue_cons_live hlive, total_append, UInt32.ofNat_add, liveQueue_nil, total_cons, total_nil,
    Nat.add_zero, hunits]

end Rested

end Velox.OrderBook
