import Velox.EngineSession
import Velox.SymbolEngine

namespace Velox
set_option autoImplicit true

open OrderBook PriceLevel

/-- The engine of a symbol and the cells that the snapshot thread holds for its orders; every other
cell is free, and the pool may hand it out. -/
structure OrderStorage where
  engine : SymbolEngine
  botStorage : List OrderPtr

inductive StorageEvent
  | submit (p : OrderPtr) (o : Order)
  | process
  | cancel (id : UInt64)
  | sweep

/-- A bot's order as the snapshot thread puts it into its cell. -/
def Order.prepared (o : Order) : Order :=
  { o with remainingQuantity := o.quantity, filledQuantity := 0, status := .NEW }

theorem Order.fresh_prepared (o : Order) : o.prepared.Fresh := ⟨rfl, rfl, rfl⟩

namespace OrderStorage

def start (symbol : List UInt8) (shared : Collaborators) : OrderStorage :=
  ⟨SymbolEngine.new symbol shared, []⟩

def book (s : OrderStorage) : OrderBook := s.engine.mEngine.engine.mOrderBook

def orders (s : OrderStorage) : OrderHeap := s.engine.mEngine.orders

def waiting (s : OrderStorage) : List OrderPtr := s.engine.mEngine.engine.mIncomingOrders.items

def submit (p : OrderPtr) (o : Order) (s : OrderStorage) : OrderStorage where
  engine := (SymbolEngine.onMarketOrder (some p)
    { s.engine with mEngine.orders := Function.update s.orders p o.prepared }).2
  botStorage := s.botStorage ++ [p]

/-- Cells whose order is no longer `NEW` or `PARTIAL` go back to the pool. -/
def sweep (s : OrderStorage) : OrderStorage :=
  { s with botStorage := s.botStorage.filter fun p =>
      (s.orders p).status == .NEW || (s.orders p).status == .PARTIAL }

/-- The three threads of a symbol: a free cell is acquired for a new order, the next waiting order is
processed, an order is cancelled, the finished orders are swept. -/
inductive Step : OrderStorage → StorageEvent → OrderStorage → Prop
  | submit {s : OrderStorage} {p : OrderPtr} (o : Order) (hp : p ∉ s.botStorage) :
      Step s (.submit p o) (s.submit p o)
  | process {s : OrderStorage} {t : EngineRun}
      (h : s.engine.mEngine.matchCycleBody = some (.inr t)) :
      Step s .process { s with engine.mEngine := t }
  | cancel {s : OrderStorage} (id : UInt64) :
      Step s (.cancel id) { s with engine := (s.engine.cancelOrder id).2 }
  | sweep {s : OrderStorage} : Step s .sweep s.sweep

/-- No ring slot in use and no index entry refers to a cell that has been released; each order in a
ring has one slot, at its own price. -/
structure Owned (s : OrderStorage) : Prop where
  ringed : ∀ side, ∀ l ∈ s.book.levels side, ∀ p ∈ (s.book.level l).ring, p ∈ s.botStorage
  indexed : ∀ id loc, s.book.mOrderIndex id = some loc → loc.orderPtr ∈ s.botStorage
  once : ∀ side, ∀ l ∈ s.book.levels side, (s.book.level l).ring.Nodup ∧
    ∀ side', ∀ m ∈ s.book.levels side', ∀ p ∈ (s.book.level l).ring,
      p ∈ (s.book.level m).ring → m = l
  priced : ∀ side, ∀ l ∈ s.book.levels side, ∀ p ∈ (s.book.level l).ring,
    (s.orders p).price = s.book.priceAt l

/-- A sweep finds no order in a ring that is neither `NEW` nor `PARTIAL`. -/
def CleanSweep (s : OrderStorage) : StorageEvent → Prop
  | .sweep => ∀ side, ∀ l ∈ s.book.levels side, ∀ p ∈ (s.book.level l).ring,
      (s.orders p).status = .NEW ∨ (s.orders p).status = .PARTIAL
  | _ => True

/-- What clean steps keep: the book is in order on cells that are held, and the waiting orders are
fresh and in cells of their own. -/
structure Sound (s : OrderStorage) : Prop where
  kept : ∃ known, s.book.Kept s.orders known ∧
    ∀ p ∈ known, p ∈ s.botStorage ∧ p ∉ s.waiting
  fresh : ∀ p ∈ s.waiting, p ∈ s.botStorage ∧ (s.orders p).Fresh
  distinct : s.waiting.Nodup

variable {s t : OrderStorage} {e : StorageEvent} {p q : OrderPtr} {o : Order}

theorem sound_start (symbol : List UInt8) (shared : Collaborators) : (start symbol shared).Sound where
  kept := ⟨[], Session.kept_start symbol, fun p hp => by cases hp⟩
  fresh := fun p hp => by cases hp
  distinct := List.nodup_nil

theorem Sound.owned (h : s.Sound) : s.Owned := by
  obtain ⟨known, hk, hheld⟩ := h.kept
  refine ⟨fun side l hl p hp => (hheld p (hk.ringed side l hl p hp)).1,
    fun id loc hi => (hheld _ (hk.indexed id loc hi).1).1, fun side l hl => ⟨?_, ?_⟩, ?_⟩
  · exact (hk.ladder.wf side l hl).nodup
  · exact fun side' m hm p hp hp' => hk.ladder.ring_unique hm hl hp' hp
  · exact fun side l hl p hp => (hk.ladder.resting side l hl p hp).2

theorem waiting_submit (p : OrderPtr) (o : Order) (s : OrderStorage) :
    (s.submit p o).waiting = s.waiting ∨ (s.submit p o).waiting = s.waiting ++ [p] := by
  change (SPSCQueue.push p s.engine.mEngine.engine.mIncomingOrders).2.items = _ ∨
    (SPSCQueue.push p s.engine.mEngine.engine.mIncomingOrders).2.items = _
  rw [SPSCQueue.push]
  split
  · exact .inr rfl
  · exact .inl rfl

theorem Sound.submit (h : s.Sound) (o : Order) (hp : p ∉ s.botStorage) : (s.submit p o).Sound := by
  obtain ⟨known, hk, hheld⟩ := h.kept
  have hpk : p ∉ known := fun hmem => hp (hheld p hmem).1
  have hpw : p ∉ s.waiting := fun hmem => hp (h.fresh p hmem).1
  have hold : ∀ q, q ∈ s.botStorage → q ∈ (s.submit p o).botStorage := fun q hq =>
    List.mem_append_left _ hq
  have hself : (s.submit p o).orders p = o.prepared := Function.update_self ..
  have hother : ∀ q, q ≠ p → (s.submit p o).orders q = s.orders q := fun q hq =>
    Function.update_of_ne hq ..
  have hmem : ∀ q ∈ (s.submit p o).waiting, q = p ∨ q ∈ s.waiting := fun q hq => by
    rcases waiting_submit p o s with he | he <;> rw [he] at hq
    · exact .inr hq
    · rcases List.mem_append.1 hq with hq | hq
      · exact .inr hq
      · exact .inl (List.mem_singleton.1 hq)
  refine ⟨⟨known, ?_, fun q hq => ⟨hold q (hheld q hq).1, fun hw => ?_⟩⟩, fun q hq => ?_, ?_⟩
  · exact Session.Kept.write (s := ⟨s.book, s.orders, known⟩) hpk o.prepared hk
  · rcases hmem q hw with rfl | hw
    · exact hpk hq
    · exact (hheld q hq).2 hw
  · rcases hmem q hq with rfl | hq
    · rw [hself]
      exact ⟨List.mem_append_right _ List.mem_cons_self, o.fresh_prepared⟩
    · rw [hother q fun he => hpw (he ▸ hq)]
      exact ⟨hold q (h.fresh q hq).1, (h.fresh q hq).2⟩
  · rcases waiting_submit p o s with he | he <;> rw [he]
    · exact h.distinct
    · exact List.nodup_append.2 ⟨h.distinct, List.nodup_singleton p, fun q hq r hr he =>
        hpw (List.mem_singleton.1 hr ▸ he ▸ hq)⟩

theorem Sound.process (h : s.Sound) {t : EngineRun}
    (ht : s.engine.mEngine.matchCycleBody = some (.inr t)) :
    Sound { s with engine.mEngine := t } := by
  obtain ⟨known, hk, hheld⟩ := h.kept
  obtain ⟨p, ps, out, hitems, hc⟩ := EngineRun.turn_spec ht
  have hwait : s.waiting = p :: ps := hitems
  have hps := h.distinct
  have hfresh := h.fresh
  rw [hwait, List.nodup_cons] at hps
  rw [hwait] at hfresh
  have hpk : p ∉ known := fun hmem => (hheld p hmem).2 (hwait ▸ List.mem_cons_self)
  -- the order to be processed is already in its cell
  let u : EngineSession := ⟨{ s.engine.mEngine with engine.mIncomingOrders := ⟨ps⟩ }, known, []⟩
  have hcall : u.call p (s.orders p) = u.run :=
    congrArg (fun orders => { u.run with orders }) (Function.update_eq_self p s.orders)
  rw [show EngineRun.processOrder p _ = EngineRun.processOrder p (u.call p (s.orders p)) by
    rw [hcall]] at hc
  have hqueue : t.engine.mIncomingOrders.items = ps := by
    rw [EngineSession.process_queue hc]
  refine ⟨⟨p :: known, EngineSession.process_kept (s := u) hk hpk (hfresh p List.mem_cons_self).2 hc,
    fun q hq => ?_⟩, fun q hq => ?_, ?_⟩
  · change q ∈ s.botStorage ∧ q ∉ t.engine.mIncomingOrders.items
    rw [hqueue]
    rcases List.mem_cons.1 hq with rfl | hq
    · exact ⟨(hfresh q List.mem_cons_self).1, hps.1⟩
    · have hheldq := hheld q hq
      rw [hwait] at hheldq
      exact ⟨hheldq.1, fun hmem => hheldq.2 (List.mem_cons_of_mem p hmem)⟩
  · change q ∈ t.engine.mIncomingOrders.items at hq
    rw [hqueue] at hq
    change q ∈ s.botStorage ∧ (t.orders q).Fresh
    rw [EngineSession.process_other (s := u) hk hpk hc (fun he => hps.1 (he ▸ hq))
      fun hmem => (hheld q hmem).2 (hwait ▸ List.mem_cons_of_mem p hq)]
    exact hfresh q (List.mem_cons_of_mem p hq)
  · change t.engine.mIncomingOrders.items.Nodup
    rw [hqueue]
    exact hps.2

theorem Sound.cancel (h : s.Sound) (id : UInt64) :
    Sound { s with engine := (s.engine.cancelOrder id).2 } := by
  obtain ⟨known, hk, hheld⟩ := h.kept
  refine ⟨⟨known, hk.cancel id, hheld⟩, fun q hq => ⟨(h.fresh q hq).1, ?_⟩, h.distinct⟩
  change ((s.book.cancelOrder id s.orders).2.2 q).Fresh
  rw [hk.cancel_other id fun hmem => (hheld q hmem).2 hq]
  exact (h.fresh q hq).2

theorem Kept.narrow {b : OrderBook} {orders : OrderHeap} {known known' : List OrderPtr}
    (h : b.Kept orders known)
    (hring : ∀ side, ∀ l ∈ b.levels side, ∀ p ∈ (b.level l).ring, p ∈ known')
    (hindex : ∀ id loc, b.mOrderIndex id = some loc → loc.orderPtr ∈ known') :
    b.Kept orders known' where
  ladder := h.ladder
  ringed := hring
  indexed := fun id loc hi => ⟨hindex id loc hi, (h.indexed id loc hi).2⟩
  best := h.best

theorem mem_sweep : p ∈ s.sweep.botStorage ↔ p ∈ s.botStorage ∧ (s.orders p).isActive = true :=
  List.mem_filter

theorem isActive_iff : o.isActive = true ↔ o.status = .NEW ∨ o.status = .PARTIAL := by
  rw [Order.isActive, Bool.or_eq_true, beq_iff_eq, beq_iff_eq]

theorem Sound.sweep (h : s.Sound) (hc : s.CleanSweep .sweep) : s.sweep.Sound := by
  obtain ⟨known, hk, hheld⟩ := h.kept
  refine ⟨⟨known.filter fun p => (s.orders p).isActive, ?_, fun p hp => ?_⟩, fun p hp => ?_,
    h.distinct⟩
  · refine Kept.narrow hk (fun side l hl p hp => ?_) fun id loc hi => ?_
    · exact List.mem_filter.2 ⟨hk.ringed side l hl p hp, isActive_iff.2 (hc side l hl p hp)⟩
    · obtain ⟨hmem, -, hactive, -⟩ := hk.indexed id loc hi
      exact List.mem_filter.2 ⟨hmem, hactive⟩
  · obtain ⟨hp, hactive⟩ := List.mem_filter.1 hp
    exact ⟨mem_sweep.2 ⟨(hheld p hp).1, hactive⟩, (hheld p hp).2⟩
  · exact ⟨mem_sweep.2 ⟨(h.fresh p hp).1, (h.fresh p hp).2.active⟩, (h.fresh p hp).2⟩

theorem Step.sound (hs : Step s e t) (h : s.Sound) (hc : s.CleanSweep e) : t.Sound := by
  cases hs with
  | submit o hp => exact h.submit o hp
  | process ht => exact h.process ht
  | cancel id => exact h.cancel id
  | sweep => exact h.sweep hc

/-- A sweep that releases an order in a ring leaves the ring referring to it. -/
theorem Step.clean (hs : Step s e t) (h : t.Owned) : s.CleanSweep e := by
  cases hs with
  | sweep => exact fun side l hl p hp => isActive_iff.1 (mem_sweep.1 (h.ringed side l hl p hp)).2
  | _ => trivial

/-- Nothing refers to released storage throughout a run exactly when every sweep finds only `NEW` and
`PARTIAL` orders in the rings. -/
theorem owned_iff {symbol : List UInt8} {shared : Collaborators}
    (h : Runs Step (start symbol shared) ts s) :
    (∀ x ∈ ts, x.2.2.Owned) ↔ ∀ x ∈ ts, x.1.CleanSweep x.2.1 :=
  h.throughout_iff (I := Sound) (C := fun x => x.1.CleanSweep x.2.1) (sound_start symbol shared)
    (fun _ hi => hi.owned) (fun _ _ _ hi hs hc => Step.sound hs hi hc) fun _ _ _ _ hs ht =>
    Step.clean hs ht

def perform (s : OrderStorage) (e : StorageEvent) : Option (StorageEvent × OrderStorage) :=
  match e with
  | .submit p o => if p ∉ s.botStorage then some (e, s.submit p o) else none
  | .process => match s.engine.mEngine.matchCycleBody with
    | some (.inr t) => some (e, { s with engine.mEngine := t })
    | _ => none
  | .cancel id => some (e, { s with engine := (s.engine.cancelOrder id).2 })
  | .sweep => some (e, s.sweep)

theorem perform_step {c : StorageEvent} (h : s.perform c = some (e, t)) : Step s e t := by
  cases c with
  | submit p o =>
    simp only [perform] at h
    split at h
    · rename_i hp
      obtain ⟨rfl, rfl⟩ := Prod.mk.inj (Option.some.inj h)
      exact .submit o hp
    · cases h
  | process =>
    simp only [perform] at h
    split at h
    · rename_i u hu
      obtain ⟨rfl, rfl⟩ := Prod.mk.inj (Option.some.inj h)
      exact .process hu
    · cases h
  | cancel id =>
    obtain ⟨rfl, rfl⟩ := Prod.mk.inj (Option.some.inj h)
    exact .cancel id
  | sweep =>
    obtain ⟨rfl, rfl⟩ := Prod.mk.inj (Option.some.inj h)
    exact .sweep

theorem exists_run (symbol : List UInt8) (shared : Collaborators) (cs : List StorageEvent)
    (ok : List (OrderStorage × StorageEvent × OrderStorage) → OrderStorage → Bool)
    (h : (Runs.play perform (start symbol shared) cs).any (fun x => ok x.1 x.2) = true) :
    ∃ ts s, Runs Step (start symbol shared) ts s ∧ ok ts s = true :=
  Runs.exists_of_play (fun _ _ _ _ => perform_step) h

instance (s : OrderStorage) : (e : StorageEvent) → Decidable (s.CleanSweep e)
  | .sweep => inferInstanceAs (Decidable (∀ side, ∀ l ∈ s.book.levels side, _))
  | .submit .. => isTrue trivial
  | .process => isTrue trivial
  | .cancel _ => isTrue trivial

theorem owned_iff_head_cancelled : ∃ ts s, Runs Step (start [] {}) ts s ∧
    s.botStorage = [2, 1] ∧ ∀ x ∈ ts, x.2.2.Owned := by
  obtain ⟨ts, s, hr, hok⟩ := exists_run [] {}
    [.submit 1 (.limit 1 .SELL 100 5), .submit 2 (.limit 2 .SELL 100 5), .process, .process,
      .cancel 1, .sweep, .submit 1 (.limit 3 .BUY 90 5), .process]
    (fun ts s => ts.all (fun x => x.1.CleanSweep x.2.1) && s.botStorage = [2, 1]) (by decide +kernel)
  rw [Bool.and_eq_true, List.all_eq_true] at hok
  exact ⟨ts, s, hr, of_decide_eq_true hok.2,
    (owned_iff hr).2 fun x hx => of_decide_eq_true (hok.1 x hx)⟩

/-- The second of two sells at 100 is cancelled, swept and its cell used again: a buy at 90 stands
among the sells at 100. -/
theorem released_cell_in_ring : ∃ ts s t, Runs Step (start [] {}) ts s ∧ 2 ∉ s.botStorage ∧
    (∃ l ∈ s.book.mAskLevels, 2 ∈ (s.book.level l).ring) ∧ ¬ s.Owned ∧
    Step s (.submit 2 (.limit 3 .BUY 90 5)) t ∧
    (∃ l ∈ t.book.mAskLevels, 2 ∈ (t.book.level l).ring ∧ isLive t.orders 2 = true ∧
      t.book.priceAt l = 100 ∧ (t.orders 2).price = 90) := by
  obtain ⟨ts, s, hr, hok⟩ := exists_run [] {}
    [.submit 1 (.limit 1 .SELL 100 5), .submit 2 (.limit 2 .SELL 100 5), .process, .process,
      .cancel 2, .sweep]
    (fun _ s => decide (2 ∉ s.botStorage ∧ (∃ l ∈ s.book.mAskLevels, 2 ∈ (s.book.level l).ring) ∧
      ∃ l ∈ (s.submit 2 (.limit 3 .BUY 90 5)).book.mAskLevels,
        2 ∈ ((s.submit 2 (.limit 3 .BUY 90 5)).book.level l).ring ∧
        isLive (s.submit 2 (.limit 3 .BUY 90 5)).orders 2 = true ∧
        (s.submit 2 (.limit 3 .BUY 90 5)).book.priceAt l = 100 ∧
        ((s.submit 2 (.limit 3 .BUY 90 5)).orders 2).price = 90)) (by decide +kernel)
  obtain ⟨hfree, ⟨l, hl, hring⟩, hreused⟩ := of_decide_eq_true hok
  exact ⟨ts, s, _, hr, hfree, ⟨l, hl, hring⟩, fun h => hfree (h.ringed false l hl 2 hring),
    .submit _ hfree, hreused⟩

end OrderStorage

end Velox
