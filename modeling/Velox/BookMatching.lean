import Velox.LevelUpdate

namespace Velox
set_option autoImplicit true

open Greedy PriceLevel

variable {orders orders' orders'' : OrderHeap} {lvl lvl' lvl'' : PriceLevel} {p : OrderPtr}

/-- A level whose total is, modulo `2^32`, what its live orders leave open. -/
def PriceLevel.Exact (orders : OrderHeap) (lvl : PriceLevel) : Prop :=
  lvl.mTotalQuantity = UInt32.ofNat (total (liveQueue orders lvl.ring))

/-- What a sweep through a side may do to a level: drop orders off the front of its ring. -/
structure Shrunk (orders orders' : OrderHeap) (lvl lvl' : PriceLevel) : Prop where
  price : lvl'.mPrice = lvl.mPrice
  counted : lvl'.mSize + lvl.used = lvl.mSize + lvl'.used
  gone : ∃ ps, lvl.ring = ps ++ lvl'.ring
  keeps : ∀ q ∈ lvl'.ring, isLive orders' q = isLive orders q
  exact : lvl.Exact orders → lvl'.Exact orders'

theorem Shrunk.of_same (h : ∀ q ∈ lvl.ring, orders' q = orders q) :
    Shrunk orders orders' lvl lvl where
  price := rfl
  counted := rfl
  gone := ⟨[], rfl⟩
  keeps := fun q hq => (same_live (h q hq)).1
  exact := fun he => by
    rw [PriceLevel.Exact, liveQueue_congr fun q hq => same_live (h q hq)]
    exact he

theorem Shrunk.trans (h : Shrunk orders orders' lvl lvl') (h' : Shrunk orders' orders'' lvl' lvl'') :
    Shrunk orders orders'' lvl lvl'' where
  price := h'.price.trans h.price
  counted := by
    have h₁ := h.counted
    have h₂ := h'.counted
    omega
  gone := by
    obtain ⟨ps, hps⟩ := h.gone
    obtain ⟨qs, hqs⟩ := h'.gone
    exact ⟨ps ++ qs, by rw [hps, hqs, List.append_assoc]⟩
  keeps := fun q hq => by
    obtain ⟨qs, hqs⟩ := h'.gone
    exact (h'.keeps q hq).trans (h.keeps q (hqs ▸ List.mem_append_right _ hq))
  exact := fun he => h'.exact (h.exact he)

theorem PriceLevel.Matched.open_left {s t : LevelRun} {fs : List Fill} (h : Matched p s t fs) :
    volume fs + Greedy.total (liveQueue t.orders t.level.ring) =
      Greedy.total (liveQueue s.orders s.level.ring) := by
  have h₁ := total_taken_add_rest anyOrder (units s.orders p) (liveQueue s.orders s.level.ring)
  have h₂ := total_taken_add_rest anyOrder (units t.orders p) (liveQueue t.orders t.level.ring)
  rw [h.drawn] at h₁
  simp only [total_append] at h₁
  rw [volume]
  omega

theorem PriceLevel.Matched.shrunk {s t : LevelRun} {fs : List Fill} (h : Matched p s t fs) :
    Shrunk s.orders t.orders s.level t.level where
  price := h.price
  counted := h.counted
  gone := h.gone
  keeps := h.keeps
  exact := fun he => by
    have hsub : ∀ a b : UInt32, a + b - a = b := by grind
    rw [PriceLevel.Exact, h.total, he, ← h.open_left, UInt32.ofNat_add, hsub]

namespace OrderBook

/-- The live orders of some levels with their open quantities, level by level. -/
def queueOf (b : OrderBook) (orders : OrderHeap) (ls : List LevelPtr) : List (OrderPtr × ℕ) :=
  ls.flatMap fun l => liveQueue orders (b.level l).ring

/-- The live orders of a side with their open quantities, best price first, oldest first. -/
def sideQueue (b : OrderBook) (orders : OrderHeap) (s : Bool) : List (OrderPtr × ℕ) :=
  b.queueOf orders (b.levels s)

/-- An order of the other side that an incoming order of side `s` accepts at its limit. -/
def within (orders : OrderHeap) (s : Bool) (limit : Int64) (q : OrderPtr) : Bool :=
  !ahead s (orders q).price limit

def Unringed (b : OrderBook) (p : OrderPtr) : Prop :=
  ∀ s, ∀ l ∈ b.levels s, p ∉ (b.level l).ring

variable {b : OrderBook} {s : Bool} {l : LevelPtr} {ls : List LevelPtr} {t u : BookRun}
  {fs gs : List Fill}

@[simp] theorem queueOf_nil : b.queueOf orders [] = [] := rfl

@[simp] theorem queueOf_cons : b.queueOf orders (l :: ls) =
    liveQueue orders (b.level l).ring ++ b.queueOf orders ls := List.flatMap_cons

@[simp] theorem queueOf_append (ls ms : List LevelPtr) : b.queueOf orders (ls ++ ms) =
    b.queueOf orders ls ++ b.queueOf orders ms := List.flatMap_append

theorem mem_queueOf {x : OrderPtr × ℕ} : x ∈ b.queueOf orders ls ↔
    ∃ l ∈ ls, x ∈ liveQueue orders (b.level l).ring := List.mem_flatMap

theorem queueOf_congr {b' : OrderBook} (h : ∀ l ∈ ls,
    liveQueue orders' (b'.level l).ring = liveQueue orders (b.level l).ring) :
    b'.queueOf orders' ls = b.queueOf orders ls := by
  rw [queueOf, queueOf, List.flatMap_def, List.flatMap_def, List.map_congr_left h]

theorem outside_iff (s : Bool) (x limit : Int64) :
    ahead s x limit = (s && decide (x > limit) || !s && decide (x < limit)) := by
  cases s <;> simp only [ahead, Bool.false_eq_true, if_true, if_false, Bool.true_and, Bool.false_and,
    Bool.not_true, Bool.not_false, Bool.or_false, Bool.false_or]

theorem matchBody_done (h : units t.orders p = 0) : matchBody p s t = some (.inl t) := by
  rw [matchBody]
  cases t.book.levels (!s) with
  | nil => rfl
  | cons l ls => simp only [if_pos (units_eq_zero_iff.1 h)]

theorem matchBody_exhausted (h : t.book.levels (!s) = []) : matchBody p s t = some (.inl t) := by
  rw [matchBody, h]

theorem matchBody_outside (h : t.book.levels (!s) = l :: ls)
    (hout : ahead s (t.book.priceAt l) (t.orders p).price = true) :
    matchBody p s t = some (.inl t) := by
  change ahead s (t.book.level l).price _ = true at hout
  rw [outside_iff, Bool.or_eq_true] at hout
  rcases hout with hout | hout <;> simp only [matchBody, h, hout, if_true, ite_self]

theorem matchBody_turn (h : t.book.levels (!s) = l :: ls) (hwf : (t.book.level l).Wf)
    (hp : p ∉ (t.book.level l).ring) (hq : 0 < units t.orders p)
    (hin : ahead s (t.book.priceAt l) (t.orders p).price = false) :
    ∃ lvl fs, Matched p ⟨t.book.level l, t.orders, t.fills⟩
        ⟨lvl, replay p t.orders fs, t.fills ++ fs⟩ fs ∧
      (units (replay p t.orders fs) p = 0 ∨ lvl.ring = []) ∧
      matchBody p s t = some (.inr ⟨t.book.putLevel (!s) l lvl (UInt32.ofNat (volume fs)),
        replay p t.orders fs, t.fills ++ fs⟩) := by
  obtain ⟨r, fs, hr, hm, hexit⟩ :=
    matchOrder_spec (s := ⟨t.book.level l, t.orders, t.fills⟩) hwf hp hq
  obtain ⟨lvl, orders', fills'⟩ := r
  obtain rfl : orders' = replay p t.orders fs := hm.orders
  obtain rfl : fills' = t.fills ++ fs := hm.fills
  refine ⟨lvl, fs, hm, hexit, ?_⟩
  have hsub : ∀ a b : UInt32, a - (a - b) = b := by grind
  have hne : ¬ (t.orders p).remainingQuantity = 0 := fun he => by
    rw [← units_eq_zero_iff] at he
    omega
  change ahead s (t.book.level l).price _ = false at hin
  rw [outside_iff, Bool.or_eq_false_iff] at hin
  simp only [matchBody, h, if_neg hne, hin.1, hin.2, Bool.false_eq_true, if_false, hr]
  simp only [Option.map_some, totalQuantity, PriceLevel.empty, beq_iff_eq]
  rw [show lvl.mTotalQuantity = _ from hm.total, hsub]
  split
  · rw [dropFront_eq h (by assumption)]
  · rw [putLevel, if_neg (by assumption)]

/-- What the loop of `match` has done so far for an incoming order of side `s`: the fills drawn
from the other side's live orders in order, and nothing to the order's own side. -/
structure Crossed (p : OrderPtr) (s : Bool) (u t : BookRun) (fs : List Fill) : Prop where
  fills : t.fills = u.fills ++ fs
  orders : t.orders = replay p u.orders fs
  fair : Fair p u.orders fs
  makers : ∀ f ∈ fs, ∃ l ∈ u.book.levels (!s), f.order ∈ (u.book.level l).ring ∧
    ahead s (u.book.priceAt l) (u.orders p).price = false
  ladder : Ladder t.book t.orders
  unringed : Unringed t.book p
  own : t.book.levels s = u.book.levels s
  level_own : ∀ l ∈ u.book.levels s, t.book.level l = u.book.level l
  gone : ∃ ls, u.book.levels (!s) = ls ++ t.book.levels (!s)
  shrunk : ∀ l ∈ t.book.levels (!s), Shrunk u.orders t.orders (u.book.level l) (t.book.level l)
  index : t.book.mOrderIndex = u.book.mOrderIndex
  sequence : t.book.mSequence = u.book.mSequence
  depth_own : t.book.depth s = u.book.depth s
  depth : t.book.depth (!s) = u.book.depth (!s) - UInt32.ofNat (volume fs)
  drawn : consume (within u.orders s (u.orders p).price) (units u.orders p)
      (u.book.sideQueue u.orders (!s)) =
    ⟨fs.map Fill.pair ++ (consume (within u.orders s (u.orders p).price) (units t.orders p)
        (t.book.sideQueue t.orders (!s))).taken,
      (consume (within u.orders s (u.orders p).price) (units t.orders p)
        (t.book.sideQueue t.orders (!s))).rest,
      (consume (within u.orders s (u.orders p).price) (units t.orders p)
        (t.book.sideQueue t.orders (!s))).left⟩

theorem Crossed.refl (h : Ladder u.book u.orders) (hp : Unringed u.book p) :
    Crossed p s u u [] where
  fills := (List.append_nil _).symm
  orders := rfl
  fair := trivial
  makers := fun f hf => by cases hf
  ladder := h
  unringed := hp
  own := rfl
  level_own := fun _ _ => rfl
  gone := ⟨[], rfl⟩
  shrunk := fun l _ => .of_same fun _ _ => rfl
  index := rfl
  sequence := rfl
  depth_own := rfl
  depth := (UInt32.sub_zero _).symm
  drawn := rfl

section Turn

variable (hl : Shelves t.book t.orders) (hp : Unringed t.book p)
  (hls : t.book.levels (!s) = l :: ls)
  (hm : Matched p ⟨t.book.level l, t.orders, t.fills⟩
    ⟨lvl, replay p t.orders gs, t.fills ++ gs⟩ gs)
include hl hp hls hm

theorem turn_frame {s' : Bool} {m : LevelPtr} (hml : m ∈ t.book.levels s') (hne : m ≠ l)
    {q : OrderPtr} (hq : q ∈ (t.book.level m).ring) : replay p t.orders gs q = t.orders q := by
  refine replay_other (fun he => hp s' m hml (he ▸ hq)) fun f hf he => ?_
  have hfl : f.order ∈ (t.book.level l).ring := hm.makers f hf
  rw [he] at hfl
  exact hne (hl.ring_unique hml (hls ▸ List.mem_cons_self) hq hfl)

theorem turn_shelves (diff : UInt32) :
    Shelves (t.book.putLevel (!s) l lvl diff) (replay p t.orders gs) := by
  have hmem : l ∈ t.book.levels (!s) := hls ▸ List.mem_cons_self
  obtain ⟨ps, hps⟩ := hm.gone
  refine hl.putLevel hmem (fun _ => rfl) hm.price hm.wf
    (fun q hq => hps ▸ List.mem_append_right _ hq)
    (fun q => ⟨replay_static (fun _ _ => rfl) p t.orders gs q,
      replay_static (fun _ _ => rfl) p t.orders gs q⟩) ?_
  intro s' m hml q hq hkept ha
  rw [replay_static (g := Order.isActive) (fun _ _ => rfl)] at ha
  have hlive : isLive t.orders q = true := isLive_iff.2 ⟨ha, hl.unfilled s' m hml q hq ha⟩
  by_cases hne : m = l
  · have hk : isLive (replay p t.orders gs) q = isLive t.orders q := hm.keeps q (hkept hne)
    rw [hlive] at hk
    exact (isLive_iff.1 hk).2
  · rw [(same_live (turn_frame hl hp hls hm hml hne hq)).2]
    exact (isLive_iff.1 hlive).2

omit hl in
theorem turn_ladder (hl : Ladder t.book t.orders) (diff : UInt32) :
    Ladder (t.book.putLevel (!s) l lvl diff) (replay p t.orders gs) :=
  hl.of_putLevel (hls ▸ List.mem_cons_self) (fun _ => rfl) hm.price
    (turn_shelves hl.shelves hp hls hm diff)

theorem turn_queue (diff : UInt32) :
    (t.book.putLevel (!s) l lvl diff).sideQueue (replay p t.orders gs) (!s) =
      liveQueue (replay p t.orders gs) lvl.ring ++ t.book.queueOf t.orders ls := by
  have hnd : (l :: ls).Nodup := hls ▸ hl.nodup (!s)
  have hrest : (t.book.putLevel (!s) l lvl diff).queueOf (replay p t.orders gs) ls =
      t.book.queueOf t.orders ls := by
    apply queueOf_congr
    intro m hml
    have hne : m ≠ l := fun he => (List.nodup_cons.1 hnd).1 (he ▸ hml)
    rw [level_putLevel_of_ne hne]
    apply liveQueue_congr
    intro q hq
    exact same_live (turn_frame hl hp hls hm (hls ▸ List.mem_cons_of_mem _ hml) hne hq)
  rw [sideQueue, levels_putLevel_front hls]
  by_cases hz : lvl.mSize = 0
  · have hwf : lvl.Wf := hm.wf
    rw [if_pos hz, hrest, hwf.ring_of_size hz, liveQueue_nil, List.nil_append]
  · rw [if_neg hz, queueOf_cons, level_putLevel hz, hrest]

/-- A turn draws on the front level first, and leaves the rest of the side to the next turns. -/
theorem turn_drawn {ok : OrderPtr → Bool} (diff : UInt32)
    (hok : ∀ q ∈ (t.book.level l).ring, ok q = true)
    (hexit : units (replay p t.orders gs) p = 0 ∨ lvl.ring = []) :
    consume ok (units t.orders p) (t.book.sideQueue t.orders (!s)) =
      ⟨gs.map Fill.pair ++ (consume ok (units (replay p t.orders gs) p)
          ((t.book.putLevel (!s) l lvl diff).sideQueue (replay p t.orders gs) (!s))).taken,
        (consume ok (units (replay p t.orders gs) p)
          ((t.book.putLevel (!s) l lvl diff).sideQueue (replay p t.orders gs) (!s))).rest,
        (consume ok (units (replay p t.orders gs) p)
          ((t.book.putLevel (!s) l lvl diff).sideQueue (replay p t.orders gs) (!s))).left⟩ := by
  have hfront : ∀ x ∈ liveQueue t.orders (t.book.level l).ring, ok x.1 = true := fun x hx =>
    hok _ (mem_liveQueue.1 hx).1
  have hlevel : consume ok (units t.orders p) (liveQueue t.orders (t.book.level l).ring) =
      ⟨gs.map Fill.pair, liveQueue (replay p t.orders gs) lvl.ring,
        units (replay p t.orders gs) p⟩ := by
    have hd := hm.drawn
    rw [consume_congr (g := ok) fun x hx => (hfront x hx).symm] at hd
    rw [hd]
    rcases hexit with he | he
    · simp only [he, consume_zero, List.append_nil]
    · simp only [he, liveQueue_nil, consume_nil, List.append_nil]
  rw [turn_queue hl hp hls hm, sideQueue, hls, queueOf_cons, consume_append hfront, hlevel]
  rcases hexit with he | he
  · simp only [he, consume_zero, List.append_nil]
  · simp only [he, liveQueue_nil, List.nil_append]

end Turn

theorem Crossed.turn (h : Crossed p s u t fs) (hls : t.book.levels (!s) = l :: ls)
    (hin : ahead s (t.book.priceAt l) (u.orders p).price = false)
    (hm : Matched p ⟨t.book.level l, t.orders, t.fills⟩
      ⟨lvl, replay p t.orders gs, t.fills ++ gs⟩ gs)
    (hexit : units (replay p t.orders gs) p = 0 ∨ lvl.ring = []) :
    Crossed p s u ⟨t.book.putLevel (!s) l lvl (UInt32.ofNat (volume gs)), replay p t.orders gs,
      t.fills ++ gs⟩ (fs ++ gs) := by
  have hmem : l ∈ t.book.levels (!s) := hls ▸ List.mem_cons_self
  have hnd : (l :: ls).Nodup := hls ▸ h.ladder.nodup (!s)
  obtain ⟨gone, hgone⟩ := h.gone
  have hold : ∀ {m}, m ∈ t.book.levels (!s) → m ∈ u.book.levels (!s) := fun hm =>
    hgone ▸ List.mem_append_right _ hm
  have hpl : t.book.priceAt l = u.book.priceAt l := (h.shrunk l hmem).price
  have hsub : ∀ {m}, m ∈ (t.book.putLevel (!s) l lvl (UInt32.ofNat (volume gs))).levels (!s) →
      m ∈ t.book.levels (!s) := by
    intro m hml
    rw [levels_putLevel_front hls] at hml
    split at hml
    · exact hls ▸ List.mem_cons_of_mem _ hml
    · exact hls ▸ hml
  have hkept : l ∈ (t.book.putLevel (!s) l lvl (UInt32.ofNat (volume gs))).levels (!s) →
      lvl.mSize ≠ 0 := by
    intro hml hz
    rw [levels_putLevel_front hls, if_pos hz] at hml
    exact (List.nodup_cons.1 hnd).1 hml
  have hsub₃ : ∀ a b c : UInt32, a - b - c = a - (b + c) := by grind
  refine
    { fills := by rw [h.fills, List.append_assoc]
      orders := by rw [replay_append, ← h.orders]
      fair := fair_append.2 ⟨h.fair, by rw [← h.orders]; exact hm.fair⟩
      makers := fun f hf => ?_
      ladder := turn_ladder h.unringed hls hm h.ladder _
      unringed := fun s' m hml => ?_
      own := (levels_putLevel_of_ne (Bool.self_ne_not s)).trans h.own
      level_own := fun m hml => ?_
      gone := ?_
      shrunk := fun m hml => ?_
      index := index_putLevel.trans h.index
      sequence := sequence_putLevel.trans h.sequence
      depth_own := (depth_putLevel_of_ne (Bool.self_ne_not s)).trans h.depth_own
      depth := by rw [depth_putLevel, h.depth, volume_append, UInt32.ofNat_add, hsub₃]
      drawn := ?_ }
  · rcases List.mem_append.1 hf with hf | hf
    · exact h.makers f hf
    · obtain ⟨ps, hps⟩ := (h.shrunk l hmem).gone
      have hfl : f.order ∈ (t.book.level l).ring := hm.makers f hf
      exact ⟨l, hold hmem, hps ▸ List.mem_append_right _ hfl, by rw [← hpl, hin]⟩
  · by_cases hs : s' = s
    · subst hs
      rw [levels_putLevel_of_ne (Bool.self_ne_not s')] at hml
      have hne : m ≠ l := by
        rintro rfl
        exact Bool.not_ne_self s' (h.ladder.side_unique hmem hml)
      rw [level_putLevel_of_ne hne]
      exact h.unringed s' m hml
    · rw [Bool.eq_not_of_ne hs] at hml
      by_cases he : m = l
      · subst he
        rw [level_putLevel (hkept hml)]
        obtain ⟨ps, hps⟩ := hm.gone
        exact fun hpm => h.unringed _ m hmem (hps ▸ List.mem_append_right _ hpm)
      · rw [level_putLevel_of_ne he]
        exact h.unringed _ m (hsub hml)
  · have hml' : m ∈ t.book.levels s := h.own ▸ hml
    have hne : m ≠ l := by
      rintro rfl
      exact Bool.not_ne_self s (h.ladder.side_unique hmem hml')
    rw [level_putLevel_of_ne hne]
    exact h.level_own m hml
  · rw [levels_putLevel_front hls]
    split
    · exact ⟨gone ++ [l], by rw [hgone, hls, List.append_assoc]; rfl⟩
    · exact ⟨gone, by rw [hgone, hls]⟩
  · by_cases he : m = l
    · subst he
      rw [level_putLevel (hkept hml)]
      exact (h.shrunk m hmem).trans hm.shrunk
    · rw [level_putLevel_of_ne he]
      exact (h.shrunk m (hsub hml)).trans (.of_same fun q hq =>
        turn_frame h.ladder.shelves h.unringed hls hm (hsub hml) he hq)
  · have hok : ∀ q ∈ (t.book.level l).ring, within u.orders s (u.orders p).price q = true := by
      intro q hq
      have hprice : (t.orders q).price = (u.orders q).price := by
        rw [h.orders]
        exact replay_static (fun _ _ => rfl) p u.orders fs q
      rw [within, ← hprice, (h.ladder.resting _ l hmem q hq).2, hin]
      rfl
    rw [h.drawn, turn_drawn h.ladder.shelves h.unringed hls hm (UInt32.ofNat (volume gs)) hok hexit]
    simp only [List.map_append, List.append_assoc]

end OrderBook

end Velox
