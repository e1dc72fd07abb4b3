import Velox.OrderBook

namespace Velox
set_option autoImplicit true

variable {K : Set OrderPtr} {f : OrderPtr → Order → Order} {orders : OrderHeap} {p q : OrderPtr}

def rewrite (f : OrderPtr → Order → Order) (orders : OrderHeap) : OrderHeap :=
  fun q => f q (orders q)

/-- On the orders of a set, a replacement keeps what a book reads of an order and commutes with what
it writes. -/
structure Unseen (K : Set OrderPtr) (f : OrderPtr → Order → Order) : Prop where
  id : ∀ q ∈ K, ∀ o, (f q o).orderId = o.orderId
  side : ∀ q ∈ K, ∀ o, (f q o).isBuy = o.isBuy
  price : ∀ q ∈ K, ∀ o, (f q o).price = o.price
  active : ∀ q ∈ K, ∀ o, (f q o).isActive = o.isActive
  remaining : ∀ q ∈ K, ∀ o, (f q o).remainingQuantity = o.remainingQuantity
  trade : ∀ q ∈ K, ∀ o x, f q (o.trade x) = (f q o).trade x
  cancel : ∀ q ∈ K, ∀ o, f q o.cancel = (f q o).cancel

theorem forall_mem_update [DecidableEq α] {g : α → Option β} {P : β → Prop}
    (h : ∀ j, ∀ y ∈ g j, P y) (i : α) {x : Option β} (hx : ∀ y ∈ x, P y) :
    ∀ j, ∀ y ∈ Function.update g i x j, P y := by
  intro j y hy
  by_cases hj : j = i
  · subst hj
    rw [Function.update_self] at hy
    exact hx y hy
  · rw [Function.update_of_ne hj] at hy
    exact h j y hy

theorem rewrite_update (f : OrderPtr → Order → Order) (orders : OrderHeap) (q : OrderPtr)
    (o : Order) :
    rewrite f (Function.update orders q o) = Function.update (rewrite f orders) q (f q o) := by
  funext x
  by_cases hx : x = q
  · subst hx
    simp only [rewrite, Function.update_self]
  · simp only [rewrite, Function.update_of_ne hx]

def LevelRun.rewrite (f : OrderPtr → Order → Order) (s : LevelRun) : LevelRun :=
  { s with orders := Velox.rewrite f s.orders }

def BookRun.rewrite (f : OrderPtr → Order → Order) (s : BookRun) : BookRun :=
  { s with orders := Velox.rewrite f s.orders }

def PriceLevel.Within (K : Set OrderPtr) (lvl : PriceLevel) : Prop :=
  ∀ i, ∀ q ∈ lvl.mBuffer i, q ∈ K

structure LevelRun.Within (K : Set OrderPtr) (s : LevelRun) : Prop where
  level : s.level.Within K
  fills : ∀ x ∈ s.fills, x.order ∈ K

structure OrderBook.Within (K : Set OrderPtr) (b : OrderBook) : Prop where
  stored : ∀ l, (b.level l).Within K
  indexed : ∀ id, ∀ loc ∈ b.mOrderIndex id, loc.orderPtr ∈ K

structure BookRun.Within (K : Set OrderPtr) (s : BookRun) : Prop where
  book : s.book.Within K
  fills : ∀ x ∈ s.fills, x.order ∈ K

namespace PriceLevel

variable {lvl : PriceLevel}

theorem Within.skipHead (h : lvl.Within K) : lvl.skipHead.Within K :=
  forall_mem_update h _ fun _ hq => by cases hq

theorem Within.popHead (h : lvl.Within K) : lvl.popHead.Within K :=
  h.skipHead

theorem Within.addOrder (h : lvl.Within K) (hp : p ∈ K) : (lvl.addOrder (some p) orders).Within K := by
  rw [PriceLevel.addOrder]
  split
  · exact h
  · refine forall_mem_update h _ fun q hq => ?_
    obtain rfl := Option.some.inj hq
    exact hp

theorem advanceBody_within (lvl : PriceLevel) (r : PriceLevel ⊕ PriceLevel) (h : lvl.Within K)
    (hr : advanceBody orders lvl = some r) : Sum.elim (Within K) (Within K) r := by
  rw [advanceBody] at hr
  split at hr
  · obtain rfl := Option.some.inj hr
    exact h
  · split at hr
    · obtain rfl := Option.some.inj hr
      exact h
    · obtain rfl := Option.some.inj hr
      exact h.popHead

theorem Within.advance (h : lvl.Within K) : (lvl.advance orders).Within K := by
  rw [PriceLevel.advance]
  cases hr : Loop.run (advanceBody orders) (lvl.used + 1) lvl with
  | none => exact h
  | some t => exact Loop.run_keeps advanceBody_within h hr

theorem Within.removeOrder (h : lvl.Within K) (q : Option OrderPtr) (orders : OrderHeap) :
    (lvl.removeOrder q orders).1.Within K := by
  cases q with
  | none => exact h
  | some q =>
    simp only [PriceLevel.removeOrder]
    split
    · exact h
    · split
      · exact Within.advance (K := K) h
      · exact h

section Rewrite

variable (hf : Unseen K f)
include hf

theorem isLive_rewrite (hp : p ∈ K) : isLive (rewrite f orders) p = isLive orders p := by
  rw [isLive, rewrite, hf.active p hp, hf.remaining p hp, isLive]

theorem advanceBody_rewrite (h : lvl.Within K) :
    advanceBody (rewrite f orders) lvl = advanceBody orders lvl := by
  rw [advanceBody, advanceBody]
  cases hb : lvl.mBuffer lvl.mHead with
  | none => rfl
  | some q => rw [Option.any_some, Option.any_some, isLive_rewrite hf (h _ q hb)]

theorem advance_rewrite (h : lvl.Within K) :
    lvl.advance (rewrite f orders) = lvl.advance orders := by
  rw [PriceLevel.advance, Loop.run_congr advanceBody_within
    (fun lvl hl => advanceBody_rewrite hf hl) h, PriceLevel.advance]

theorem rewrite_cancel (hp : p ∈ K) :
    Function.update (rewrite f orders) p (rewrite f orders p).cancel =
      rewrite f (Function.update orders p (orders p).cancel) := by
  rw [rewrite_update, hf.cancel p hp]
  rfl

theorem removeOrder_rewrite (h : lvl.Within K) (hp : p ∈ K) :
    lvl.removeOrder (some p) (rewrite f orders) =
      Prod.map id (rewrite f) (lvl.removeOrder (some p) orders) := by
  simp only [removeOrder, rewrite_cancel hf hp]
  rw [show (rewrite f orders p).isActive = (orders p).isActive from hf.active p hp _]
  split
  · rfl
  · rw [show (rewrite f (Function.update orders p (orders p).cancel) p).remainingQuantity =
      (Function.update orders p (orders p).cancel p).remainingQuantity from hf.remaining p hp _]
    split
    · rw [advance_rewrite hf (by exact h)]
      rfl
    · rfl

end Rewrite

section Matching

variable {s t : LevelRun}

theorem fillHead_within (h : s.Within K) (hq : q ∈ K) : (fillHead p q s).Within K := by
  simp only [fillHead]
  split
  · refine ⟨?_, fun x hx => ?_⟩
    · dsimp only
      split
      · exact Within.popHead (K := K) h.level
      · exact h.level
    · rcases List.mem_append.1 hx with hx | hx
      · exact h.fills x hx
      · rw [List.mem_singleton] at hx
        exact hx ▸ hq
  · exact h

theorem matchOrderBody_within (s : LevelRun) (r : LevelRun ⊕ LevelRun) (h : s.Within K)
    (hr : matchOrderBody p s = some r) : Sum.elim (LevelRun.Within K) (LevelRun.Within K) r := by
  have hlevel : (s.level.advance s.orders).Within K := h.level.advance
  simp only [matchOrderBody] at hr
  split at hr
  · obtain rfl := Option.some.inj hr
    exact h
  · split at hr
    · obtain rfl := Option.some.inj hr
      exact ⟨hlevel, h.fills⟩
    · split at hr
      · obtain rfl := Option.some.inj hr
        exact ⟨hlevel.skipHead, h.fills⟩
      · rename_i q hq
        split at hr
        · obtain rfl := Option.some.inj hr
          exact ⟨hlevel.skipHead, h.fills⟩
        · have hfill := fillHead_within (p := p)
            (⟨hlevel, h.fills⟩ : LevelRun.Within K { s with level := s.level.advance s.orders })
            (hlevel _ q hq)
          split at hr
          · obtain rfl := Option.some.inj hr
            exact hfill
          · obtain rfl := Option.some.inj hr
            exact hfill

theorem matchOrder_within {r : Option OrderPtr} (h : s.Within K)
    (hm : matchOrder (some p) s = some (r, t)) : t.Within K := by
  simp only [matchOrder] at hm
  split at hm
  · obtain ⟨-, rfl⟩ := Prod.mk.inj (Option.some.inj hm)
    exact h
  · rw [Option.map_eq_some_iff] at hm
    obtain ⟨u, hu, he⟩ := hm
    obtain ⟨-, rfl⟩ := Prod.mk.inj he
    exact Loop.run_keeps matchOrderBody_within h hu

variable (hf : Unseen K f)
include hf

theorem rewrite_remaining (hp : p ∈ K) (orders : OrderHeap) :
    (rewrite f orders p).remainingQuantity = (orders p).remainingQuantity :=
  hf.remaining p hp _

theorem rewrite_trade (hp : p ∈ K) (x : UInt32) :
    Function.update (rewrite f orders) p ((rewrite f orders p).trade x) =
      rewrite f (Function.update orders p ((orders p).trade x)) := by
  rw [rewrite_update, hf.trade p hp]
  rfl

theorem fillHead_rewrite (hp : p ∈ K) (hq : q ∈ K) :
    fillHead p q (s.rewrite f) = (fillHead p q s).rewrite f := by
  simp only [fillHead, LevelRun.rewrite, rewrite_remaining hf hp, rewrite_remaining hf hq,
    rewrite_trade hf hp, rewrite_trade hf hq]
  split
  · rw [show (rewrite f s.orders p).price = (s.orders p).price from hf.price p hp _]
  · rfl

theorem matchOrderBody_rewrite (hp : p ∈ K) (h : s.Within K) :
    matchOrderBody p (s.rewrite f) =
      (matchOrderBody p s).map (Sum.map (LevelRun.rewrite f) (LevelRun.rewrite f)) := by
  have hlevel : (s.level.advance s.orders).Within K := h.level.advance
  simp only [matchOrderBody, LevelRun.rewrite, advance_rewrite hf h.level, rewrite_remaining hf hp]
  split
  · rfl
  · split
    · rfl
    · split
      · rfl
      · rename_i q hq
        have hqK : q ∈ K := hlevel _ q hq
        have hfill := fillHead_rewrite (s := { s with level := s.level.advance s.orders }) hf hp hqK
        simp only [LevelRun.rewrite] at hfill
        rw [rewrite_remaining hf hqK,
          show (rewrite f s.orders q).isActive = (s.orders q).isActive from hf.active q hqK _]
        split
        · rfl
        · rw [hfill, rewrite_remaining hf hp]
          split <;> rfl

theorem matchOrder_rewrite (hp : p ∈ K) (h : s.Within K) :
    matchOrder (some p) (s.rewrite f) =
      (matchOrder (some p) s).map (Prod.map id (LevelRun.rewrite f)) := by
  simp only [matchOrder]
  rw [show ((s.rewrite f).orders p).remainingQuantity = _ from rewrite_remaining hf hp s.orders]
  split
  · rfl
  · rw [show (s.rewrite f).level = s.level from rfl,
      Loop.run_map matchOrderBody_within (fun s hs => matchOrderBody_rewrite hf hp hs) h,
      Option.map_map, Option.map_map]
    congr 1
    funext t
    simp only [Function.comp, Prod.map, id, LevelRun.rewrite, rewrite_remaining hf hp]

theorem addOrder_rewrite {lvl : PriceLevel} (hp : p ∈ K) :
    lvl.addOrder (some p) (rewrite f orders) = lvl.addOrder (some p) orders := by
  simp only [addOrder, rewrite_remaining hf hp]

end Matching

end PriceLevel

namespace OrderBook

open PriceLevel

variable {b : OrderBook} {s t : BookRun} {isBid : Bool} {l : LevelPtr}

theorem within_new (symbol : List UInt8) (K : Set OrderPtr) : (OrderBook.new symbol).Within K where
  stored _ _ _ hq := by cases hq
  indexed _ _ hloc := by cases hloc

theorem Within.mono {L : Set OrderPtr} (h : b.Within K) (hKL : K ⊆ L) : b.Within L where
  stored l i q hq := hKL (h.stored l i q hq)
  indexed id loc hloc := hKL (h.indexed id loc hloc)

theorem Within.of_eq {b' : OrderBook} (h : b.Within K) (hstore : b'.store = b.store)
    (hindex : b'.mOrderIndex = b.mOrderIndex) : b'.Within K where
  stored l := level_congr l hstore ▸ h.stored l
  indexed := hindex ▸ h.indexed

theorem Within.remap (h : b.Within K) (m : Int64 → Option LevelPtr) :
    { b with mPriceToLevel := m }.Within K :=
  h.of_eq rfl rfl

theorem Within.setLevel (h : b.Within K) (l : LevelPtr) {lvl : PriceLevel} (hl : lvl.Within K) :
    (b.setLevel l lvl).Within K where
  stored k := by
    by_cases hk : k = l
    · subst hk
      rw [level_setLevel]
      exact hl
    · rw [level_setLevel_of_ne b l k lvl hk]
      exact h.stored k
  indexed := h.indexed

theorem Within.deleteLevel (h : b.Within K) (l : LevelPtr) : (b.deleteLevel l).Within K where
  stored k := by
    by_cases hk : k = l
    · subst hk
      rw [level, show (b.deleteLevel k).store k = none from Function.update_self ..]
      exact fun _ _ hq => by cases hq
    · rw [level_deleteLevel_of_ne b l k hk]
      exact h.stored k
  indexed := h.indexed

theorem Within.setIndex (h : b.Within K) (id : UInt64) {loc : OrderLocation}
    (hloc : loc.orderPtr ∈ K) : (b.setIndex id loc).Within K where
  stored := h.stored
  indexed := forall_mem_update h.indexed id fun x hx => by
    obtain rfl := Option.some.inj hx
    exact hloc

theorem Within.eraseIndex (h : b.Within K) (id : UInt64) : (b.eraseIndex id).Within K where
  stored := h.stored
  indexed := forall_mem_update h.indexed id fun _ hx => by cases hx

theorem Within.addDepth (h : b.Within K) (q : UInt32) : (b.addDepth isBid q).Within K :=
  h.of_eq (store_addDepth b isBid q) (index_addDepth b isBid q)

theorem Within.subDepth (h : b.Within K) (q : UInt32) : (b.subDepth isBid q).Within K :=
  h.of_eq (store_subDepth b isBid q) (index_subDepth b isBid q)

theorem Within.setLevels (h : b.Within K) (ls : List LevelPtr) : (b.setLevels isBid ls).Within K :=
  h.of_eq (store_setLevels b isBid ls) (index_setLevels b isBid ls)

theorem Within.findOrInsert (h : b.Within K) (price : Int64) (isBid : Bool) :
    (b.findOrInsert price isBid).2.Within K := by
  rw [OrderBook.findOrInsert]
  split
  · exact h
  · have hnew : (b.newLevel price).2.Within K :=
      (h.setLevel b.nextLevel fun _ _ hq => by cases hq).of_eq rfl rfl
    exact (hnew.remap _).setLevels _

theorem Within.rest (h : b.Within K) (hp : p ∈ K) : (b.rest p isBid orders).Within K := by
  rw [OrderBook.rest]
  split
  · have hfound := h.findOrInsert (orders p).price isBid
    exact ((hfound.setLevel _ ((hfound.stored _).addOrder hp)).addDepth _).setIndex _ hp
  · exact h

theorem Within.drained (h : b.Within K) (l : LevelPtr) (empty : Bool) :
    (if empty then b.dropFront isBid l else b).Within K := by
  cases empty with
  | false => exact h
  | true => exact ((h.remap _).setLevels _).deleteLevel l

theorem matchBody_within (s : BookRun) (r : BookRun ⊕ BookRun) (h : s.Within K)
    (hr : matchBody p isBid s = some r) : Sum.elim (BookRun.Within K) (BookRun.Within K) r := by
  simp only [matchBody] at hr
  split at hr
  · obtain rfl := Option.some.inj hr
    exact h
  · split at hr
    · obtain rfl := Option.some.inj hr
      exact h
    · split at hr
      · obtain rfl := Option.some.inj hr
        exact h
      · split at hr
        · obtain rfl := Option.some.inj hr
          exact h
        · rw [Option.map_eq_some_iff] at hr
          obtain ⟨⟨r', t⟩, hm, rfl⟩ := hr
          have ht := matchOrder_within ⟨h.book.stored _, h.fills⟩ hm
          exact ⟨((h.book.setLevel _ ht.level).subDepth _).drained _ _, ht.fills⟩

theorem match_within {r : Option OrderPtr} (h : s.Within K) (hp : p ∈ K)
    (hm : OrderBook.match (some p) s = some (r, t)) : t.Within K := by
  simp only [OrderBook.match] at hm
  split at hm
  · obtain ⟨-, rfl⟩ := Prod.mk.inj (Option.some.inj hm)
    exact h
  · rw [Option.map_eq_some_iff] at hm
    obtain ⟨u, hu, he⟩ := hm
    obtain ⟨-, rfl⟩ := Prod.mk.inj he
    have hkept := Loop.run_keeps matchBody_within h hu
    exact ⟨(hkept.book.rest hp).of_eq rfl rfl, hkept.fills⟩

theorem Within.cancelOrder (h : b.Within K) (orderId : UInt64) :
    (b.cancelOrder orderId orders).2.1.Within K := by
  rw [OrderBook.cancelOrder]
  cases b.mOrderIndex orderId with
  | none => exact h
  | some loc =>
    cases hl : b.findLevel loc.price loc.isBid with
    | none =>
      simp only [hl]
      exact h.eraseIndex orderId
    | some l =>
      simp only [hl]
      have hset := h.setLevel l ((h.stored l).removeOrder (some loc.orderPtr) orders)
      refine Within.of_eq (Within.eraseIndex (b := if _ then _ else _) ?_ orderId) rfl rfl
      split
      · exact (((hset.subDepth _).remap _).setLevels _).deleteLevel l
      · exact hset.subDepth _

section Rewrite

variable (hf : Unseen K f)
include hf

theorem rest_rewrite (hp : p ∈ K) : b.rest p isBid (rewrite f orders) = b.rest p isBid orders := by
  simp only [rest, rewrite_remaining hf hp, addOrder_rewrite hf hp,
    show (rewrite f orders p).price = (orders p).price from hf.price p hp _,
    show (rewrite f orders p).orderId = (orders p).orderId from hf.id p hp _]

theorem matchBody_rewrite (hp : p ∈ K) (h : s.Within K) :
    matchBody p isBid (s.rewrite f) =
      (matchBody p isBid s).map (Sum.map (BookRun.rewrite f) (BookRun.rewrite f)) := by
  simp only [matchBody, BookRun.rewrite, rewrite_remaining hf hp,
    show (rewrite f s.orders p).price = (s.orders p).price from hf.price p hp _]
  split
  · rfl
  · rename_i l ls _
    have hlevel := matchOrder_rewrite (s := ⟨s.book.level l, s.orders, s.fills⟩) hf hp
      ⟨h.book.stored l, h.fills⟩
    simp only [LevelRun.rewrite] at hlevel
    split
    · rfl
    · split
      · rfl
      · split
        · rfl
        · rw [hlevel, Option.map_map, Option.map_map]
          rfl

theorem match_rewrite (hp : p ∈ K) (h : s.Within K) :
    OrderBook.match (some p) (s.rewrite f) =
      (OrderBook.match (some p) s).map (Prod.map id (BookRun.rewrite f)) := by
  simp only [OrderBook.match]
  rw [show ((s.rewrite f).orders p).remainingQuantity = _ from rewrite_remaining hf hp s.orders,
    show ((s.rewrite f).orders p).isBuy = (s.orders p).isBuy from hf.side p hp _]
  split
  · rfl
  · rw [show (s.rewrite f).book = s.book from rfl,
      Loop.run_map matchBody_within (fun s hs => matchBody_rewrite hf hp hs) h,
      Option.map_map, Option.map_map]
    congr 1
    funext t
    simp only [Function.comp, Prod.map, id, BookRun.rewrite, rewrite_remaining hf hp,
      rest_rewrite hf hp]

theorem cancelOrder_rewrite (h : b.Within K) (orders : OrderHeap) (orderId : UInt64) :
    b.cancelOrder orderId (rewrite f orders) =
      Prod.map id (Prod.map id (rewrite f)) (b.cancelOrder orderId orders) := by
  simp only [cancelOrder]
  cases hloc : b.mOrderIndex orderId with
  | none => rfl
  | some loc =>
    have hp : loc.orderPtr ∈ K := h.indexed orderId loc hloc
    dsimp only
    cases hl : b.findLevel loc.price loc.isBid with
    | none => rfl
    | some l =>
      simp only [removeOrder_rewrite hf (h.stored l) hp, Prod.map, id, rewrite_remaining hf hp,
        rewrite_cancel hf hp]

end Rewrite

theorem unseen_of_exact (hf : ∀ q ∈ K, ∀ o, f q o = o) : Unseen K f where
  id q hq o := by rw [hf q hq]
  side q hq o := by rw [hf q hq]
  price q hq o := by rw [hf q hq]
  active q hq o := by rw [hf q hq]
  remaining q hq o := by rw [hf q hq]
  trade q hq o x := by rw [hf q hq, hf q hq]
  cancel q hq o := by rw [hf q hq, hf q hq]

theorem unseen_symbols (symbols : OrderPtr → Symbol) :
    Unseen Set.univ fun q o => { o with symbol := symbols q } where
  id _ _ _ := rfl
  side _ _ _ := rfl
  price _ _ _ := rfl
  active _ _ _ := rfl
  remaining _ _ _ := rfl
  trade _ _ _ _ := rfl
  cancel _ _ _ := rfl

theorem within_univ (b : OrderBook) : b.Within Set.univ where
  stored _ _ _ _ := Set.mem_univ _
  indexed _ _ _ := Set.mem_univ _

theorem match_symbol {r : Option OrderPtr} (hm : OrderBook.match (some p) s = some (r, t))
    (q : OrderPtr) : (t.orders q).symbol = (s.orders q).symbol := by
  have hmap := match_rewrite (unseen_symbols fun q => (s.orders q).symbol) (Set.mem_univ p)
    (s := s) ⟨within_univ s.book, fun _ _ => Set.mem_univ _⟩
  rw [show s.rewrite (fun q o => { o with symbol := (s.orders q).symbol }) = s from rfl, hm] at hmap
  have horders := congrArg (fun t => (BookRun.orders t q).symbol)
    (Prod.mk.inj (Option.some.inj hmap)).2
  exact horders

theorem cancelOrder_symbol (b : OrderBook) (orders : OrderHeap) (orderId : UInt64) (q : OrderPtr) :
    ((b.cancelOrder orderId orders).2.2 q).symbol = (orders q).symbol := by
  have hmap := cancelOrder_rewrite (unseen_symbols fun q => (orders q).symbol) (within_univ b)
    orders orderId
  rw [show rewrite (fun q o => { o with symbol := (orders q).symbol }) orders = orders from rfl]
    at hmap
  exact congrArg (fun r => (r.2.2 q).symbol) hmap

end OrderBook

end Velox
