import Velox.BookMatching

namespace Velox.OrderBook
set_option autoImplicit true

open Greedy PriceLevel

variable {p : OrderPtr} {s : Bool} {t u v : BookRun} {fs gs : List Fill} {l : LevelPtr}
  {ls pre post : List LevelPtr} {lvl : PriceLevel}

/-- The loop of `match` has nothing left to do: the incoming order is filled, or no level of the
other side is within its limit. -/
def Settled (p : OrderPtr) (s : Bool) (t : BookRun) : Prop :=
  units t.orders p = 0 ∨
    ∀ m ∈ t.book.levels (!s), ahead s (t.book.priceAt m) (t.orders p).price = true

theorem Shelves.outside_of_front {b : OrderBook} {orders : OrderHeap} {limit : Int64}
    (h : Shelves b orders) (hls : b.levels (!s) = pre ++ l :: post)
    (hout : ahead s (b.priceAt l) limit = true) :
    ∀ m ∈ post, ahead s (b.priceAt m) limit = true := by
  intro m hm
  have hs := h.sorted (!s)
  rw [hls, List.pairwise_append] at hs
  have hlm := (List.pairwise_cons.1 hs.2.1).1 m hm
  rw [ahead_flip] at hlm
  exact ahead_trans hlm hout

/-- One turn that goes round again, with all that it did. -/
structure Turn (p : OrderPtr) (s : Bool) (t v : BookRun) (l : LevelPtr) (ls : List LevelPtr)
    (lvl : PriceLevel) (gs : List Fill) : Prop where
  levels : t.book.levels (!s) = l :: ls
  wants : 0 < units t.orders p
  inside : ahead s (t.book.priceAt l) (t.orders p).price = false
  matched : Matched p ⟨t.book.level l, t.orders, t.fills⟩
    ⟨lvl, replay p t.orders gs, t.fills ++ gs⟩ gs
  exit : units (replay p t.orders gs) p = 0 ∨ lvl.ring = []
  next : v = ⟨t.book.putLevel (!s) l lvl (UInt32.ofNat (volume gs)), replay p t.orders gs,
    t.fills ++ gs⟩

theorem Crossed.limit_eq (h : Crossed p s u t fs) : (t.orders p).price = (u.orders p).price := by
  rw [h.orders]
  exact replay_static (fun _ _ => rfl) p u.orders fs p

theorem Crossed.of_turn (h : Crossed p s u t fs) (ht : Turn p s t v l ls lvl gs) :
    Crossed p s u v (fs ++ gs) := by
  rw [ht.next]
  exact h.turn ht.levels (by rw [← h.limit_eq]; exact ht.inside) ht.matched ht.exit

theorem Shelves.body (h : Shelves t.book t.orders) (hp : Unringed t.book p) :
    (matchBody p s t = some (.inl t) ∧ Settled p s t) ∨
      ∃ v l ls lvl gs, matchBody p s t = some (.inr v) ∧ Turn p s t v l ls lvl gs := by
  rcases Nat.eq_zero_or_pos (units t.orders p) with hz | hq
  · exact .inl ⟨matchBody_done hz, .inl hz⟩
  cases hls : t.book.levels (!s) with
  | nil =>
    refine .inl ⟨matchBody_exhausted hls, .inr fun m hm => ?_⟩
    rw [hls] at hm
    cases hm
  | cons l ls =>
    have hmem : l ∈ t.book.levels (!s) := hls ▸ List.mem_cons_self
    cases hin : ahead s (t.book.priceAt l) (t.orders p).price with
    | true =>
      refine .inl ⟨matchBody_outside hls hin, .inr fun m hm => ?_⟩
      rw [hls] at hm
      rcases List.mem_cons.1 hm with rfl | hm
      · exact hin
      · exact h.outside_of_front (show _ = [] ++ l :: ls from hls) hin m hm
    | false =>
      obtain ⟨lvl, gs, hm, hexit, hbody⟩ :=
        matchBody_turn hls (h.wf _ l hmem) (hp _ l hmem) hq hin
      exact .inr ⟨_, l, ls, lvl, gs, hbody, ⟨hls, hq, hin, hm, hexit, rfl⟩⟩

theorem Crossed.body (h : Crossed p s u t fs) :
    (matchBody p s t = some (.inl t) ∧ Settled p s t) ∨
      ∃ v l ls lvl gs, matchBody p s t = some (.inr v) ∧ Turn p s t v l ls lvl gs :=
  h.ladder.shelves.body h.unringed

/-- What the loop of `match` keeps of any book, crossed or not: it only takes orders out of rings
and levels off their side. -/
structure Shelved (p : OrderPtr) (u t : BookRun) : Prop where
  shelves : Shelves t.book t.orders
  kept : ∀ s, ∀ m ∈ t.book.levels s,
    m ∈ u.book.levels s ∧ ∀ q ∈ (t.book.level m).ring, q ∈ (u.book.level m).ring
  orders : ∃ fs, t.orders = replay p u.orders fs
  index : t.book.mOrderIndex = u.book.mOrderIndex

theorem Shelved.unringed (h : Shelved p u t) (hp : Unringed u.book p) : Unringed t.book p :=
  fun s m hm hr => hp s m (h.kept s m hm).1 ((h.kept s m hm).2 p hr)

theorem Shelved.of_turn (h : Shelved p u t) (hp : Unringed u.book p)
    (ht : Turn p s t v l ls lvl gs) : Shelved p u v := by
  have hmem : l ∈ t.book.levels (!s) := ht.levels ▸ List.mem_cons_self
  rw [ht.next]
  refine ⟨turn_shelves h.shelves (h.unringed hp) ht.levels ht.matched _, fun s' m hm => ?_, ?_,
    index_putLevel.trans h.index⟩
  · obtain ⟨hmt, hz⟩ := (h.shelves.mem_putLevel hmem (fun _ => rfl) s').1 hm
    obtain ⟨hmu, hsub⟩ := h.kept s' m hmt
    refine ⟨hmu, fun q hq => hsub q ?_⟩
    by_cases he : m = l
    · subst he
      obtain ⟨ps, hps⟩ := ht.matched.gone
      rw [level_putLevel (hz rfl)] at hq
      exact hps ▸ List.mem_append_right _ hq
    · rwa [level_putLevel_of_ne he] at hq
  · obtain ⟨fs, hfs⟩ := h.orders
    exact ⟨fs ++ gs, by rw [replay_append, hfs]⟩

theorem matchLoop_shelved (hl : Shelves u.book u.orders) (hp : Unringed u.book p) {n : ℕ}
    (h : Loop.run (matchBody p s) n u = some t) : Shelved p u t ∧ Settled p s t := by
  refine Loop.run_sound (matchBody p s) (I := Shelved p u)
    (P := fun t => Shelved p u t ∧ Settled p s t) ?_
    ⟨hl, fun _ _ hm => ⟨hm, fun _ hq => hq⟩, ⟨[], rfl⟩, rfl⟩ h
  intro v hv r hr
  rcases hv.shelves.body (hv.unringed hp) with ⟨hb, hset⟩ | ⟨w, l, ls, lvl, gs, hb, hturn⟩
  · rw [hb] at hr
    cases hr
    exact ⟨fun w hw => by cases hw; exact ⟨hv, hset⟩, fun w hw => by cases hw⟩
  · rw [hb] at hr
    cases hr
    exact ⟨fun w hw => by (cases hw), fun w hw => by cases hw; exact hv.of_turn hp hturn⟩

theorem matchLoop_sound (hl : Ladder u.book u.orders) (hp : Unringed u.book p) {n : ℕ}
    (h : Loop.run (matchBody p s) n u = some t) :
    ∃ fs, Crossed p s u t fs ∧ Settled p s t := by
  refine Loop.run_sound (matchBody p s) (I := fun t => ∃ fs, Crossed p s u t fs)
    (P := fun t => ∃ fs, Crossed p s u t fs ∧ Settled p s t) ?_ ⟨[], .refl hl hp⟩ h
  rintro v ⟨gs, hv⟩ r hr
  rcases hv.body with ⟨hb, hset⟩ | ⟨w, l, ls, lvl, hs, hb, hturn⟩
  · rw [hb] at hr
    cases hr
    exact ⟨fun w hw => by cases hw; exact ⟨gs, hv, hset⟩, fun w hw => by cases hw⟩
  · rw [hb] at hr
    cases hr
    exact ⟨fun w hw => by (cases hw), fun w hw => by cases hw; exact ⟨_, hv.of_turn hturn⟩⟩

section TurnFacts

variable (ht : Turn p s t v l ls lvl gs)
include ht

theorem Turn.units_eq : units v.orders p =
    units t.orders p - total (liveQueue t.orders (t.book.level l).ring) := by
  have hall : ∀ x ∈ liveQueue t.orders (t.book.level l).ring, anyOrder x.1 = true := fun _ _ => rfl
  rw [← left_eq hall, ht.matched.drawn, ht.next]
  rcases ht.exit with he | he
  · simp only [he, consume_zero]
  · simp only [he, liveQueue_nil, consume_nil]

theorem Turn.counted : lvl.mSize + (t.book.level l).used = (t.book.level l).mSize + lvl.used :=
  ht.matched.counted

theorem Turn.levels_next : v.book.levels (!s) = if lvl.mSize = 0 then ls else l :: ls := by
  rw [ht.next]
  exact levels_putLevel_front ht.levels

theorem Turn.drained (hq : 0 < units v.orders p) : lvl.ring = [] := by
  rw [ht.next] at hq
  exact ht.exit.resolve_left hq.ne'

theorem Turn.used_eq (hq : 0 < units v.orders p) : lvl.used = 0 := by
  have hwf : lvl.Wf := ht.matched.wf
  rw [hwf.used_eq_length, ht.drained hq]
  rfl

end TurnFacts

/-- The condition for the loop to end: no level within the limit whose count has lost touch with
its ring is asked for more than the live orders up to it can supply. -/
def Drainable (p : OrderPtr) (s : Bool) (t : BookRun) : Prop :=
  ∀ pre l post, t.book.levels (!s) = pre ++ l :: post →
    ahead s (t.book.priceAt l) (t.orders p).price = false →
    (t.book.level l).mSize ≠ (t.book.level l).used →
    units t.orders p ≤ total (t.book.queueOf t.orders (pre ++ [l]))

theorem Crossed.turn_level (h : Crossed p s u t fs) (ht : Turn p s t v l ls lvl gs)
    {m : LevelPtr} (hm : m ∈ ls) : v.book.level m = t.book.level m ∧
      liveQueue v.orders (v.book.level m).ring = liveQueue t.orders (t.book.level m).ring := by
  have hnd : (l :: ls).Nodup := ht.levels ▸ h.ladder.nodup (!s)
  have hne : m ≠ l := fun he => (List.nodup_cons.1 hnd).1 (he ▸ hm)
  have hlevel : v.book.level m = t.book.level m := by
    rw [ht.next]
    exact level_putLevel_of_ne hne
  refine ⟨hlevel, ?_⟩
  rw [hlevel, ht.next]
  apply liveQueue_congr
  intro q hq
  exact same_live (turn_frame h.ladder.shelves h.unringed ht.levels ht.matched
    (ht.levels ▸ List.mem_cons_of_mem _ hm) hne hq)

theorem Turn.limit_eq (ht : Turn p s t v l ls lvl gs) :
    (v.orders p).price = (t.orders p).price := by
  rw [ht.next]
  exact replay_static (fun _ _ => rfl) p t.orders gs p

theorem Crossed.turn_behind (h : Crossed p s u t fs) (ht : Turn p s t v l ls lvl gs)
    {m : LevelPtr} (hls : ls = pre ++ m :: post) :
    v.book.level m = t.book.level m ∧
      liveQueue v.orders (v.book.level m).ring = liveQueue t.orders (t.book.level m).ring ∧
      v.book.queueOf v.orders (pre ++ [m]) = t.book.queueOf t.orders (pre ++ [m]) := by
  have hsub : ∀ {x}, x ∈ pre ++ [m] → x ∈ ls := by
    intro x hx
    rw [hls]
    rcases List.mem_append.1 hx with hx | hx
    · exact List.mem_append_left _ hx
    · rw [List.mem_singleton.1 hx]
      exact List.mem_append_right _ List.mem_cons_self
  have hm := h.turn_level ht (hsub (List.mem_append_right _ (List.mem_singleton_self m)))
  exact ⟨hm.1, hm.2, queueOf_congr fun x hx => (h.turn_level ht (hsub hx)).2⟩

theorem Crossed.turn_drainable (h : Crossed p s u t fs) (ht : Turn p s t v l ls lvl gs)
    (hd : Drainable p s t) :
    Drainable p s v ∧ (units v.orders p = 0 ∨ v.book.levels (!s) = ls) := by
  have hu := ht.units_eq
  rcases Nat.eq_zero_or_pos (units v.orders p) with hz | hq
  · exact ⟨fun _ _ _ _ _ _ => by omega, .inl hz⟩
  have hintact : (t.book.level l).mSize = (t.book.level l).used := by
    by_contra hlost
    have hle := hd [] l ls ht.levels ht.inside hlost
    simp only [List.nil_append, queueOf_cons, queueOf_nil, List.append_nil] at hle
    omega
  have hzero : lvl.mSize = 0 := by
    have hc := ht.counted
    have := ht.used_eq hq
    omega
  have hls : v.book.levels (!s) = ls := by rw [ht.levels_next, if_pos hzero]
  refine ⟨fun pre m post hsplit hin hlost => ?_, .inr hls⟩
  obtain ⟨hm, -, hqueue⟩ := h.turn_behind ht (hls.symm.trans hsplit)
  have hle := hd (l :: pre) m post (by rw [ht.levels, ← hls, hsplit]; rfl)
    (by rw [priceAt, ← hm, ← ht.limit_eq]; exact hin) (by rw [← hm]; exact hlost)
  rw [List.cons_append, queueOf_cons, total_append] at hle
  rw [hqueue]
  omega

/-- Under the condition the loop ends within one turn more than there are levels. -/
theorem matchLoop_total (hl : Ladder u.book u.orders) (hp : Unringed u.book p)
    (hd : Drainable p s u) :
    ∃ t, Loop.run (matchBody p s) ((u.book.levels (!s)).length + 1) u = some t := by
  have hrun := Loop.run_total (matchBody p s)
    (I := fun t => (∃ fs, Crossed p s u t fs) ∧ Drainable p s t) (P := fun _ => True)
    (μ := fun t => if units t.orders p = 0 then 0 else (t.book.levels (!s)).length)
    (s := u) (n := (u.book.levels (!s)).length + 1) ?_ ⟨⟨[], .refl hl hp⟩, hd⟩
    (by split <;> omega)
  · obtain ⟨t, ht, -⟩ := hrun
    exact ⟨t, ht⟩
  · rintro t ⟨⟨fs, h⟩, hd⟩
    rcases h.body with ⟨hb, -⟩ | ⟨v, l, ls, lvl, gs, hb, ht⟩
    · exact ⟨_, hb, fun _ _ => trivial, fun v hv => by cases hv⟩
    · refine ⟨_, hb, fun _ _ => trivial, fun w hw => ?_⟩
      cases hw
      obtain ⟨hd', hdec⟩ := h.turn_drainable ht hd
      refine ⟨⟨⟨_, h.of_turn ht⟩, hd'⟩, ?_⟩
      rw [if_neg ht.wants.ne', ht.levels, List.length_cons]
      rcases hdec with hz | hls
      · rw [if_pos hz]
        exact Nat.succ_pos _
      · rw [hls]
        split <;> omega

/-- The loop is stuck on a front level whose ring is used up but whose count is not. -/
def Stuck (p : OrderPtr) (s : Bool) (u t : BookRun) : Prop :=
  (∃ fs, Crossed p s u t fs) ∧ 0 < units t.orders p ∧
    ∃ l ls, t.book.levels (!s) = l :: ls ∧
      ahead s (t.book.priceAt l) (t.orders p).price = false ∧
      (t.book.level l).ring = [] ∧ (t.book.level l).mSize ≠ 0

theorem Turn.stuck (h : Crossed p s u t fs) (ht : Turn p s t v l ls lvl gs)
    (hq : 0 < units v.orders p) (hlost : (t.book.level l).mSize ≠ (t.book.level l).used) :
    Stuck p s u v := by
  have hne : lvl.mSize ≠ 0 := by
    have hc := ht.counted
    have := ht.used_eq hq
    omega
  have hlevel : v.book.level l = lvl := by
    rw [ht.next]
    exact level_putLevel hne
  refine ⟨⟨_, h.of_turn ht⟩, hq, l, ls, by rw [ht.levels_next, if_neg hne], ?_,
    by rw [hlevel]; exact ht.drained hq, by rwa [hlevel]⟩
  rw [priceAt, hlevel, show lvl.mPrice = _ from ht.matched.price, ht.limit_eq]
  exact ht.inside

theorem Stuck.diverges (h : Stuck p s u t) (n : ℕ) : Loop.run (matchBody p s) n t = none := by
  refine Loop.run_diverges (I := Stuck p s u) ?_ h n
  rintro t ⟨⟨fs, hc⟩, hq, l, ls, hls, hin, hring, hsize⟩
  have hmem : l ∈ t.book.levels (!s) := hls ▸ List.mem_cons_self
  rcases hc.body with ⟨-, hz | hout⟩ | ⟨v, l', ls', lvl, gs, hb, ht⟩
  · omega
  · rw [hout l hmem] at hin
    cases hin
  · refine ⟨v, hb, ?_⟩
    obtain ⟨rfl, rfl⟩ := List.cons.inj (hls.symm.trans ht.levels)
    have hused : (t.book.level l).used = 0 := by
      rw [(hc.ladder.wf _ l hmem).used_eq_length, hring]
      rfl
    apply Turn.stuck hc ht _ (by omega)
    rw [ht.units_eq, hring, liveQueue_nil, total_nil]
    omega

/-- Without the condition the loop never ends. -/
theorem matchLoop_diverges (h : Crossed p s u t fs)
    (hls : t.book.levels (!s) = pre ++ l :: post)
    (hin : ahead s (t.book.priceAt l) (t.orders p).price = false)
    (hlost : (t.book.level l).mSize ≠ (t.book.level l).used)
    (hlt : total (t.book.queueOf t.orders (pre ++ [l])) < units t.orders p) (n : ℕ) :
    Loop.run (matchBody p s) n t = none := by
  induction pre generalizing t fs n with
  | nil =>
    cases n with
    | zero => rfl
    | succ n =>
      have hmem : l ∈ t.book.levels (!s) := hls ▸ List.mem_cons_self
      rcases h.body with ⟨-, hz | hout⟩ | ⟨v, l', ls', lvl, gs, hb, ht⟩
      · omega
      · rw [hout l hmem] at hin
        cases hin
      · obtain ⟨rfl, rfl⟩ := List.cons.inj (hls.symm.trans ht.levels)
        rw [Loop.run_again hb]
        apply Stuck.diverges (Turn.stuck h ht _ hlost)
        rw [ht.units_eq]
        simp only [List.nil_append, queueOf_cons, queueOf_nil, List.append_nil] at hlt
        omega
  | cons a pre ih =>
    cases n with
    | zero => rfl
    | succ n =>
      have hmem : a ∈ t.book.levels (!s) := hls ▸ List.mem_cons_self
      have hlmem : l ∈ t.book.levels (!s) := hls ▸ List.mem_append_right _ List.mem_cons_self
      rcases h.body with ⟨-, hz | hout⟩ | ⟨v, a', ls', lvl, gs, hb, ht⟩
      · omega
      · rw [hout l hlmem] at hin
        cases hin
      · obtain ⟨rfl, rfl⟩ := List.cons.inj (hls.symm.trans ht.levels)
        rw [Loop.run_again hb]
        simp only [List.cons_append, queueOf_cons, total_append] at hlt
        have hq : 0 < units v.orders p := by
          rw [ht.units_eq]
          omega
        by_cases hlost' : (t.book.level a).mSize = (t.book.level a).used
        · have hzero : lvl.mSize = 0 := by
            have hc := ht.counted
            have := ht.used_eq hq
            omega
          obtain ⟨hm, -, hqueue⟩ := h.turn_behind ht (show pre ++ l :: post = pre ++ l :: post from rfl)
          apply ih (h.of_turn ht) (by rw [ht.levels_next, if_pos hzero]; rfl)
          · rw [priceAt, hm, ht.limit_eq]
            exact hin
          · rwa [hm]
          · rw [hqueue, ht.units_eq, queueOf_append, total_append]
            simp only [queueOf_append, total_append] at hlt
            omega
        · exact (Turn.stuck h ht hq hlost').diverges n

end Velox.OrderBook
