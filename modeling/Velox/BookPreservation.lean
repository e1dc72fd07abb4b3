import Velox.BookInvariant

namespace Velox.OrderBook
set_option autoImplicit true

open Greedy PriceLevel

variable {b : OrderBook} {orders orders' : OrderHeap} {known : List OrderPtr} {p q : OrderPtr}
  {s s' : Bool} {u v t : BookRun} {fs : List Fill} {r : Option OrderPtr} {l m : LevelPtr}
  {id : UInt64} {loc : OrderLocation}

theorem Stocked.of_eq (h : Stocked b orders known) : Stocked b.updateBestPrices.bumpSequence orders
    known :=
  ⟨h.shelves.of_eq (fun _ => rfl) rfl rfl rfl, h.ringed, h.indexed⟩

theorem Stocked.rested (h : Stocked b orders known) (hp : p ∉ known) (hside : (orders p).isBuy = s)
    (hact : (orders p).isActive = true) (hpos : 0 < units orders p) {lvl : PriceLevel}
    {A B : List LevelPtr} {b' : OrderBook} (hr : Rested p s orders b b' l lvl A B) :
    Stocked b' orders (p :: known) where
  shelves := hr.shelves h.shelves (h.unringed hp) hside hpos
  ringed := fun s' m hm q hq => by
    have hne : (orders p).remainingQuantity ≠ 0 := fun he => by
      rw [← units_eq_zero_iff] at he
      omega
    rcases hr.mem h.shelves hm with ⟨rfl, rfl⟩ | ⟨hml, hm⟩
    · rw [hr.placed.level_self] at hq
      rcases mem_ring_addOrder hne hq with rfl | hq
      · exact List.mem_cons_self
      · rcases hr.placed.before with ⟨hb, rfl⟩ | ⟨-, -, rfl, -⟩
        · have hm : m ∈ b.levels s' := hb ▸ List.mem_append_right _ List.mem_cons_self
          exact List.mem_cons_of_mem _ (h.ringed s' m hm q hq)
        · rw [ring_new] at hq
          cases hq
    · rw [hr.placed.level_other hml] at hq
      exact List.mem_cons_of_mem _ (h.ringed s' m hm q hq)
  indexed := fun id loc hi => by
    rw [hr.index] at hi
    by_cases hid : id = (orders p).orderId
    · rw [hid, Function.update_self, Option.some.injEq] at hi
      subst hi
      exact ⟨List.mem_cons_self, hid.symm, hact, rfl, hside⟩
    · rw [Function.update_of_ne hid] at hi
      exact (h.indexed id loc hi).imp_left (List.mem_cons_of_mem p)

theorem Stocked.mono (h : Stocked b orders known) (p : OrderPtr) : Stocked b orders (p :: known) :=
  { h with
    ringed := fun s l hl q hq => List.mem_cons_of_mem p (h.ringed s l hl q hq)
    indexed := fun id loc hi => (h.indexed id loc hi).imp_left (List.mem_cons_of_mem p) }

section Shelved

variable (hv : Shelved p u v)
include hv

theorem Shelved.static {g : Order → α} (hg : ∀ o q, g (o.trade q) = g o) (q : OrderPtr) :
    g (v.orders q) = g (u.orders q) := by
  obtain ⟨fs, hfs⟩ := hv.orders
  rw [hfs]
  exact replay_static hg p u.orders fs q

theorem Shelved.stocked (hset : Settled p s v) (h : Stocked u.book u.orders known) (hp : p ∉ known)
    (hside : (u.orders p).isBuy = s) (hact : (u.orders p).isActive = true) :
    Stocked (v.book.rest p s v.orders).updateBestPrices.bumpSequence v.orders (p :: known) := by
  have hst : Stocked v.book v.orders known :=
    { shelves := hv.shelves
      ringed := fun s' m hm q hq => h.ringed s' m (hv.kept s' m hm).1 q ((hv.kept s' m hm).2 q hq)
      indexed := fun id loc hi => by
        rw [hv.static (g := Order.orderId) (fun _ _ => rfl),
          hv.static (g := Order.isActive) (fun _ _ => rfl),
          hv.static (g := Order.price) (fun _ _ => rfl), hv.static (g := Order.isBuy) (fun _ _ => rfl)]
        rw [hv.index] at hi
        exact h.indexed id loc hi }
  apply Stocked.of_eq
  rcases Nat.eq_zero_or_pos (units v.orders p) with hz | hq
  · rw [rest_nothing hz]
    exact hst.mono p
  · have hout : ∀ m ∈ v.book.levels (!s), v.book.priceAt m ≠ (v.orders p).price := fun m hm =>
      ahead_ne (hset.resolve_left hq.ne' m hm)
    obtain ⟨l, lvl, A, B, hr⟩ := hv.shelves.rested hout hq
    exact hst.rested hp ((hv.static (fun _ _ => rfl) p).trans hside)
      ((hv.static (fun _ _ => rfl) p).trans hact) hq hr

end Shelved

section Match

variable (hpr : Processed p s u v t fs)
include hpr

theorem Processed.static {g : Order → α} (hg : ∀ o q, g (o.trade q) = g o) (q : OrderPtr) :
    g (t.orders q) = g (u.orders q) := by
  rw [hpr.orders]
  exact hpr.crossed.static hg q

theorem Processed.queue_eq (s₀ : Bool) : t.book.sideQueue t.orders s₀ =
    (v.book.rest p s v.orders).sideQueue v.orders s₀ := by
  rw [hpr.book, hpr.orders]
  rfl

theorem Processed.ladder (hside : (u.orders p).isBuy = s) : Ladder t.book t.orders := by
  have hside' : (v.orders p).isBuy = s := (hpr.crossed.static (fun _ _ => rfl) p).trans hside
  have hrest : Ladder (v.book.rest p s v.orders) v.orders := by
    rcases hpr.final with ⟨-, he⟩ | ⟨hq, l, lvl, A, B, hr⟩
    · rw [he]
      exact hpr.crossed.ladder
    · exact hr.ladder hpr.crossed.ladder hpr.crossed.unringed hside' hq (hpr.outside hq)
  rw [hpr.book, hpr.orders]
  exact hrest.of_eq (fun _ => rfl) rfl rfl rfl

theorem Processed.index_eq :
    (units v.orders p = 0 ∧ t.book.mOrderIndex = u.book.mOrderIndex) ∨
    (0 < units v.orders p ∧ t.book.mOrderIndex =
      Function.update u.book.mOrderIndex (u.orders p).orderId
        (some { price := (u.orders p).price, isBid := s, orderPtr := p })) := by
  rw [hpr.book]
  rcases hpr.final with ⟨hz, he⟩ | ⟨hq, l, lvl, A, B, hr⟩
  · left
    rw [he]
    exact ⟨hz, hpr.crossed.index⟩
  · right
    refine ⟨hq, ?_⟩
    change (v.book.rest p s v.orders).mOrderIndex = _
    rw [hr.index, hpr.crossed.index, hpr.crossed.limit_eq,
      hpr.crossed.static (g := Order.orderId) (fun _ _ => rfl)]

theorem Processed.shelved (h : Kept u.book u.orders known) (hp : p ∉ known) : Shelved p u v := by
  obtain ⟨n, hn⟩ := hpr.loop
  exact (matchLoop_shelved h.ladder.shelves (h.unringed hp) hn).1

theorem Processed.kept (h : Kept u.book u.orders known) (hp : p ∉ known)
    (hside : (u.orders p).isBuy = s) (hact : (u.orders p).isActive = true) :
    Kept t.book t.orders (p :: known) := by
  have hs := (hpr.shelved h hp).stocked hpr.settled h.stocked hp hside hact
  rw [← hpr.book, ← hpr.orders] at hs
  exact hs.kept (hpr.ladder hside) (by rw [hpr.book]; rfl)

end Match

section MatchIntact

variable (hpr : Processed p s u v t fs) (h : Intact u.book u.orders known) (hp : p ∉ known)
include hpr h hp

theorem Processed.level_exact (hm : m ∈ v.book.levels s') :
    (v.book.level m).mSize = (v.book.level m).used ∧ (v.book.level m).Exact v.orders := by
  obtain ⟨hmu, -⟩ := hpr.crossed.ring_sub hm
  have hcu := h.counted s' m hmu
  have heu := h.exact s' m hmu
  by_cases hs : s' = s
  · subst hs
    rw [hpr.crossed.level_own m hmu]
    refine ⟨hcu, ?_⟩
    rw [PriceLevel.Exact, liveQueue_congr fun q hq =>
      same_live (hpr.crossed.own_order h.ladder (h.unringed hp) hmu hq)]
    exact heu
  · rw [Bool.eq_not_of_ne hs] at hm
    have hsh := hpr.crossed.shrunk m hm
    have hc := hsh.counted
    exact ⟨by omega, hsh.exact heu⟩

omit h hp in
/-- With room in every ring, what is left of the order finds a free slot. -/
theorem Processed.room {lvl : PriceLevel} {A B : List LevelPtr} (hroom : Roomy t.book)
    (hq : 0 < units v.orders p)
    (hr : Rested p s v.orders v.book (v.book.rest p s v.orders) l lvl A B) :
    lvl.used + 1 < maxOrders := by
  have hne : (v.orders p).remainingQuantity ≠ 0 := fun he => by
    rw [← units_eq_zero_iff] at he
    omega
  have hl : l ∈ t.book.levels s := by
    rw [hpr.book]
    change l ∈ (v.book.rest p s v.orders).levels s
    rw [hr.placed.levels]
    exact List.mem_append_right _ List.mem_cons_self
  have hocc := hroom s l hl
  rw [hpr.book] at hocc
  change ((v.book.rest p s v.orders).level l).occupied < _ at hocc
  rw [hr.placed.level_self] at hocc
  exact hr.placed.wf.room hne hocc

omit h hp in
theorem Processed.queue_other : t.book.sideQueue t.orders (!s) =
    v.book.sideQueue v.orders (!s) := by
  rw [hpr.queue_eq]
  rcases hpr.final with ⟨-, he⟩ | ⟨-, l, lvl, A, B, hr⟩
  · rw [he]
  · exact hr.other_queue hpr.crossed.ladder.shelves

theorem Processed.queue_own (hroom : Roomy t.book) (hact : (u.orders p).isActive = true) :
    (units v.orders p = 0 ∧ t.book.sideQueue t.orders s = u.book.sideQueue u.orders s) ∨
    (0 < units v.orders p ∧ ∃ X Y, u.book.sideQueue u.orders s = X ++ Y ∧
      t.book.sideQueue t.orders s = X ++ (p, units v.orders p) :: Y ∧
      (∀ x ∈ X, ahead s (u.orders p).price (u.orders x.1).price = false) ∧
      ∀ y ∈ Y, ahead s (u.orders p).price (u.orders y.1).price = true) := by
  have hown := hpr.crossed.own_queue h.ladder (h.unringed hp)
  have hprice : ∀ q, (v.orders q).price = (u.orders q).price :=
    hpr.crossed.static (g := Order.price) fun _ _ => rfl
  rw [hpr.queue_eq, ← hown]
  rcases hpr.final with ⟨hz, he⟩ | ⟨hq, l, lvl, A, B, hr⟩
  · rw [he]
    exact .inl ⟨hz, rfl⟩
  · have hlive : isLive v.orders p = true :=
      isLive_iff.2 ⟨by rw [hpr.crossed.static (g := Order.isActive) fun _ _ => rfl, hact], hq⟩
    have hq' := hr.sideQueue hpr.crossed.ladder.shelves hlive (hpr.room hroom hq hr)
    simp only [hprice] at hq'
    exact .inr ⟨hq, hq'⟩

theorem Processed.levels_exact (hroom : Roomy t.book) (hact : (u.orders p).isActive = true)
    (hm : m ∈ t.book.levels s') :
    (t.book.level m).mSize = (t.book.level m).used ∧ (t.book.level m).Exact t.orders := by
  have hmem : m ∈ (v.book.rest p s v.orders).levels s' := by
    rw [hpr.book] at hm
    exact hm
  have hlevel : t.book.level m = (v.book.rest p s v.orders).level m := by
    rw [hpr.book]
    rfl
  rw [hlevel, hpr.orders]
  rcases hpr.final with ⟨-, he⟩ | ⟨hq, l, lvl, A, B, hr⟩
  · rw [he] at hmem ⊢
    exact hpr.level_exact h hp hmem
  · rcases hr.mem hpr.crossed.ladder.shelves hmem with ⟨rfl, rfl⟩ | ⟨hne, hmem⟩
    · have hlive : isLive v.orders p = true :=
        isLive_iff.2 ⟨by rw [hpr.crossed.static (g := Order.isActive) fun _ _ => rfl, hact], hq⟩
      apply hr.level_exact hlive (hpr.room hroom hq hr)
      rcases hr.placed.before with ⟨hb, rfl⟩ | ⟨-, -, rfl, -⟩
      · exact hpr.level_exact h hp (hb ▸ List.mem_append_right _ List.mem_cons_self)
      · exact ⟨rfl, rfl⟩
    · rw [hr.placed.level_other hne]
      exact hpr.level_exact h hp hmem

theorem Processed.depth_eq (hroom : Roomy t.book) (hact : (u.orders p).isActive = true) (s₀ : Bool) :
    t.book.depth s₀ = UInt32.ofNat (total (t.book.sideQueue t.orders s₀)) := by
  have hdepth : t.book.depth s₀ = (v.book.rest p s v.orders).depth s₀ := by
    rw [hpr.book]
    rfl
  by_cases hs : s₀ = s
  · subst hs
    rcases hpr.queue_own h hp hroom hact with ⟨hz, hqueue⟩ | ⟨hpos, X, Y, hu, ht, -⟩
    · rcases hpr.final with ⟨-, he⟩ | ⟨hq, -⟩
      · rw [hdepth, he, hpr.crossed.depth_own, hqueue]
        exact h.depth s₀
      · omega
    · rcases hpr.final with ⟨hz, -⟩ | ⟨-, l, lvl, A, B, hr⟩
      · omega
      · have hunits : UInt32.ofNat (units v.orders p) = (v.orders p).remainingQuantity :=
          UInt32.ofNat_toNat
        have hcomm : ∀ a b c : UInt32, a + b + c = a + (c + b) := by grind
        rw [hdepth, hr.depth, hpr.crossed.depth_own, h.depth s₀, hu, ht, total_append, total_append,
          total_cons, UInt32.ofNat_add, UInt32.ofNat_add, UInt32.ofNat_add, hunits, hcomm]
  · rw [Bool.eq_not_of_ne hs] at hdepth ⊢
    have hv : t.book.depth (!s) = v.book.depth (!s) := by
      rw [hdepth]
      rcases hpr.final with ⟨-, he⟩ | ⟨-, l, lvl, A, B, hr⟩
      · rw [he]
      · exact hr.depth_other
    have hdraw := total_taken_add_rest (within u.orders s (u.orders p).price) (units u.orders p)
      (u.book.sideQueue u.orders (!s))
    rw [hpr.drawn] at hdraw
    have hsub : ∀ a b : UInt32, a + b - a = b := by grind
    rw [hv, hpr.crossed.depth, h.depth, hpr.queue_other, ← hdraw, UInt32.ofNat_add]
    exact hsub _ _

omit h hp in
theorem Processed.units_eq (hne : q ≠ p) : units t.orders q + drawnOn q fs = units u.orders q := by
  rw [hpr.orders, hpr.crossed.orders]
  exact hpr.crossed.fair.units_maker hne

theorem Processed.still_queued (hroom : Roomy t.book) (hact : (u.orders p).isActive = true)
    (hne : q ≠ p) {s₀ : Bool} (hq : (q, units u.orders q) ∈ u.book.sideQueue u.orders s₀)
    (hlive : isLive t.orders q = true) : (q, units t.orders q) ∈ t.book.sideQueue t.orders s₀ := by
  by_cases hs : s₀ = s
  · subst hs
    have hsame : units t.orders q = units u.orders q := by
      obtain ⟨m, hm, hq⟩ := mem_sideQueue.1 hq
      rw [hpr.orders, units, units,
        hpr.crossed.own_order h.ladder (h.unringed hp) hm (mem_liveQueue.1 hq).1]
    rw [hsame]
    rcases hpr.queue_own h hp hroom hact with ⟨-, he⟩ | ⟨-, X, Y, hu, ht, -⟩
    · rwa [he]
    · rw [hu] at hq
      rw [ht]
      rcases List.mem_append.1 hq with hq | hq
      · exact List.mem_append_left _ hq
      · exact List.mem_append_right _ (List.mem_cons_of_mem _ hq)
  · rw [Bool.eq_not_of_ne hs] at hq ⊢
    rw [hpr.queue_other]
    have hamount := amount_consume (within u.orders s (u.orders p).price) q (units u.orders p)
      (u.book.sideQueue u.orders (!s))
    rw [hpr.drawn] at hamount
    have hall := le_amount hq
    have hsum := hpr.units_eq hne
    have hpos := (isLive_iff.1 hlive).2
    rw [drawnOn] at hsum
    have hleft : 0 < amount q (v.book.sideQueue v.orders (!s)) := by
      simp only at hamount
      omega
    obtain ⟨a, ha⟩ := exists_mem_of_amount hleft
    obtain ⟨-, -, hu⟩ := hpr.crossed.ladder.static_of_mem ha
    rw [hpr.orders]
    exact (show a = units v.orders q from hu) ▸ ha

theorem Processed.was_queued (hroom : Roomy t.book) (hact : (u.orders p).isActive = true)
    {s₀ : Bool} {x : OrderPtr × ℕ} (hx : x ∈ t.book.sideQueue t.orders s₀) :
    (s₀ = s ∧ x = (p, units v.orders p) ∧ 0 < units v.orders p) ∨
      (x.1 ≠ p ∧ (x.1, units u.orders x.1) ∈ u.book.sideQueue u.orders s₀) := by
  have hne : ∀ {s₁ y}, y ∈ u.book.sideQueue u.orders s₁ → y.1 ≠ p := by
    intro s₁ y hy he
    obtain ⟨m, hm, hy⟩ := mem_sideQueue.1 hy
    exact hp (he ▸ h.ringed s₁ m hm _ (mem_liveQueue.1 hy).1)
  have hunits : ∀ {s₁ y}, y ∈ u.book.sideQueue u.orders s₁ → y = (y.1, units u.orders y.1) :=
    fun hy => Prod.ext rfl (h.ladder.static_of_mem hy).2.2
  by_cases hs : s₀ = s
  · subst hs
    have hold : x ∈ u.book.sideQueue u.orders s₀ →
        x.1 ≠ p ∧ (x.1, units u.orders x.1) ∈ u.book.sideQueue u.orders s₀ := fun hx =>
      ⟨hne hx, hunits hx ▸ hx⟩
    rcases hpr.queue_own h hp hroom hact with ⟨-, he⟩ | ⟨hpos, X, Y, hu, ht, -⟩
    · exact .inr (hold (he ▸ hx))
    · rw [ht] at hx
      rcases List.mem_append.1 hx with hx | hx
      · exact .inr (hold (by rw [hu]; exact List.mem_append_left _ hx))
      · rcases List.mem_cons.1 hx with rfl | hx
        · exact .inl ⟨rfl, rfl, hpos⟩
        · exact .inr (hold (by rw [hu]; exact List.mem_append_right _ hx))
  · right
    rw [Bool.eq_not_of_ne hs] at hx ⊢
    rw [hpr.queue_other] at hx
    obtain ⟨m, hm, hx⟩ := mem_sideQueue.1 hx
    obtain ⟨hring, hlive, -⟩ := mem_liveQueue.1 hx
    obtain ⟨hmu, hsub⟩ := hpr.crossed.ring_sub hm
    have hlive' : isLive u.orders x.1 = true := (hpr.crossed.shrunk m hm).keeps _ hring ▸ hlive
    have hmem : (x.1, units u.orders x.1) ∈ u.book.sideQueue u.orders (!s) :=
      mem_sideQueue.2 ⟨m, hmu, mem_liveQueue.2 ⟨hsub _ hring, hlive', rfl⟩⟩
    exact ⟨hne (y := (x.1, units u.orders x.1)) hmem, hmem⟩

/-- A call of `match` with a fresh order loses and miscounts nothing. -/
theorem Processed.intact (hside : (u.orders p).isBuy = s) (hact : (u.orders p).isActive = true)
    (hid : ∀ q ∈ known, (u.orders q).orderId ≠ (u.orders p).orderId) (hroom : Roomy t.book) :
    Intact t.book t.orders (p :: known) where
  toKept := hpr.kept h.toKept hp hside hact
  counted := fun s' m hm => (hpr.levels_exact h hp hroom hact hm).1
  exact := fun s' m hm => (hpr.levels_exact h hp hroom hact hm).2
  depth := hpr.depth_eq h hp hroom hact
  found := fun s₀ x hx => by
    rw [hpr.static (g := Order.orderId) (fun _ _ => rfl),
      hpr.static (g := Order.price) (fun _ _ => rfl)]
    rcases hpr.was_queued h hp hroom hact hx with ⟨rfl, rfl, hpos⟩ | ⟨-, hx⟩
    · rcases hpr.index_eq with ⟨hz, -⟩ | ⟨-, he⟩
      · omega
      · rw [he, Function.update_self]
    · have hfound := h.found s₀ _ hx
      obtain ⟨m, hm, hx⟩ := mem_sideQueue.1 hx
      have hk := h.ringed s₀ m hm _ (mem_liveQueue.1 hx).1
      rcases hpr.index_eq with ⟨-, he⟩ | ⟨-, he⟩
      · rw [he, hfound]
      · rw [he, Function.update_of_ne (hid _ hk), hfound]
  queued := fun q hq hlive => by
    rw [hpr.static (g := Order.isBuy) (fun _ _ => rfl)]
    rcases List.mem_cons.1 hq with rfl | hq
    · have hpos := (isLive_iff.1 hlive).2
      rw [hpr.orders] at hpos
      rw [hside]
      rcases hpr.queue_own h hp hroom hact with ⟨hz, -⟩ | ⟨-, X, Y, -, ht, -⟩
      · omega
      · rw [ht, hpr.orders]
        exact List.mem_append_right _ List.mem_cons_self
    · have hne : q ≠ p := fun he => hp (he ▸ hq)
      have hlive' : isLive u.orders q = true := by
        obtain ⟨ha, hpos⟩ := isLive_iff.1 hlive
        rw [hpr.static (g := Order.isActive) fun _ _ => rfl] at ha
        have := hpr.units_eq hne
        exact isLive_iff.2 ⟨ha, by omega⟩
      exact hpr.still_queued h hp hroom hact hne (h.queued q hq hlive') hlive

end MatchIntact

end Velox.OrderBook
