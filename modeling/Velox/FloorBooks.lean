import Velox.BotDelivery
import Velox.EngineCounts
import Velox.EngineDrain

namespace Velox
set_option autoImplicit true

open OrderBook OrderStorage
open scoped List

/-- An order's id, and the name that the position manager files it under. -/
def Order.label (o : Order) : UInt64 × List UInt8 := (o.orderId, o.key)

namespace Tracks

variable {r t : EngineRun} {e : NaiveEngine} {p q : OrderPtr} {o : Order}
  {ps : List (OrderPtr × Order)}

/-- When the rings have none but active orders, those that are not active can be forgotten. -/
theorem narrow (h : Tracks r e)
    (hring : ∀ side, ∀ l ∈ r.engine.mOrderBook.levels side,
      ∀ p ∈ (r.engine.mOrderBook.level l).ring, (r.orders p).isActive = true) :
    Tracks r { e with processed := e.processed.filter fun p => (r.orders p).isActive } where
  intact :=
    { OrderStorage.Kept.narrow h.intact.toKept
        (fun side l hl p hp => List.mem_filter.2
          ⟨h.intact.ringed side l hl p hp, hring side l hl p hp⟩)
        (fun id loc hi => by
          obtain ⟨hmem, -, hactive, -⟩ := h.intact.indexed id loc hi
          exact List.mem_filter.2 ⟨hmem, hactive⟩) with
      counted := h.intact.counted
      exact := h.intact.exact
      depth := h.intact.depth
      found := h.intact.found
      queued := fun p hp => h.intact.queued p (List.mem_of_mem_filter hp) }
  refers := h.refers
  queue := h.queue
  held x hx := by
    obtain ⟨hcell, ho, hrisk, hp⟩ := h.held x hx
    exact ⟨hcell, ho, hrisk, fun hm => hp (List.mem_of_mem_filter hm)⟩
  ids x hx q hq := h.ids x hx q (List.mem_of_mem_filter hq)
  distinct := h.distinct

theorem turn_label (h : Tracks r e) (hpending : e.pending = (p, o) :: ps)
    (ht : r.matchCycleBody = some (.inr t)) :
    (t.orders p).label = o.label ∧ ∀ q ∈ e.processed, (t.orders q).label = (r.orders q).label := by
  obtain ⟨hcell, -, -, hp⟩ := h.held (p, o) (hpending ▸ List.mem_cons_self)
  obtain ⟨out, hc⟩ := h.turn_call hpending ht
  have hkept : (e.turning r).book.Kept := h.intact.toKept
  have hself := EngineSession.process_id_self hkept hp hc
  have hkey : ∀ q, (t.orders q).key = (r.orders q).key := fun q => by
    rw [EngineRun.processOrder_key hc q, h.call_turning hpending]
    rfl
  refine ⟨Prod.ext hself ?_, fun q hq => Prod.ext (EngineSession.process_id_known hkept hp hc hq)
    (hkey q)⟩
  rw [Order.label, hkey, show r.orders p = o from hcell]
  rfl

theorem turn_counts (h : Tracks r e) (hpending : e.pending = (p, o) :: ps)
    (ht : r.matchCycleBody = some (.inr t)) (hroom : t.engine.mOrderBook.Roomy) :
    ((⟨e.book, r.engine.getStats⟩ : RefEngine).process (fun _ => true) p o).1 =
      ⟨(e.process (p, o)).book, t.engine.getStats⟩ := by
  obtain ⟨-, ho, hrisk, hp⟩ := h.held (p, o) (hpending ▸ List.mem_cons_self)
  obtain ⟨out, hc⟩ := h.turn_call hpending ht
  have hcounts := congrArg Prod.fst (EngineSession.process_counts (s := e.turning r) h.intact hp
    (h.ids (p, o) (hpending ▸ List.mem_cons_self)) ho hc hroom)
  have hnaive : (e.turning r).refEngine = ⟨e.book, r.engine.getStats⟩ :=
    congrArg (RefEngine.mk · _) h.refers
  have hsame : RefEngine.process (e.turning r).run.shared.checkRisk p o ⟨e.book, r.engine.getStats⟩ =
      RefEngine.process (fun _ => true) p o ⟨e.book, r.engine.getStats⟩ :=
    RefEngine.process_congr hrisk p _
  rw [hnaive] at hcounts
  exact (congrArg Prod.fst hsame).symm.trans (hcounts.trans
    (congrArg (RefEngine.mk · _) (h.turn hpending ht hroom).refers))

end Tracks

namespace NaiveEngine

variable {e : NaiveEngine} {p q : OrderPtr} {o : Order}

theorem submit_cases (e : NaiveEngine) (p : OrderPtr) (o : Order) :
    (e.pending.length < 65536 ∧ e.submit p o = { e with pending := e.pending ++ [(p, o)] }) ∨
      (¬ e.pending.length < 65536 ∧ e.submit p o = e) := by
  rw [submit]
  split
  · exact .inl ⟨‹_›, rfl⟩
  · exact .inr ⟨‹_›, rfl⟩

theorem submit_frame (e : NaiveEngine) (p : OrderPtr) (o : Order) :
    (e.submit p o).processed = e.processed ∧ (e.submit p o).book = e.book := by
  rcases submit_cases e p o with ⟨-, he⟩ | ⟨-, he⟩ <;> rw [he] <;> exact ⟨rfl, rfl⟩

theorem given_submit (h : q ∈ (e.submit p o).given) : q ∈ e.given ∨ q = p := by
  rcases submit_cases e p o with ⟨-, he⟩ | ⟨-, he⟩ <;> rw [he] at h
  · rw [given, List.map_append] at h
    rcases List.mem_append.1 h with h | h
    · rcases List.mem_append.1 h with h | h
      · exact .inl (List.mem_append_left _ h)
      · exact .inr (List.mem_singleton.1 h)
    · exact .inl (List.mem_append_right _ h)
  · exact .inl h

end NaiveEngine

namespace TradingFloor

variable {n : ℕ} {c : SimulatorSettings} {s t : TradingFloor n} {ev : FloorEvent n} {i j : Fin n}
  {symbols : Fin n → List UInt8} {shared : Collaborators} {q : UInt32}
  {ts : List (TradingFloor n × FloorEvent n × TradingFloor n)} {e : NaiveEngine}
  {log : List (OrderPtr × Order)} {o : Order} {p : OrderPtr} {m : BotManager}

/-- A sweep finds none but active orders in the rings, and a turn of a worker leaves no ring with
more than 127 slots in use. -/
def Fair (s t : TradingFloor n) : FloorEvent n → Prop
  | .sweep i => (s.storage i).CleanSweep .sweep
  | .process i => (t.engine i).mEngine.engine.mOrderBook.Roomy
  | _ => True

instance : (s t : TradingFloor n) → (ev : FloorEvent n) → Decidable (Fair s t ev)
  | s, _, .sweep i => inferInstanceAs (Decidable ((s.storage i).CleanSweep .sweep))
  | _, t, .process i => inferInstanceAs (Decidable (t.engine i).mEngine.engine.mOrderBook.Roomy)
  | _, _, .simulator _ => isTrue trivial
  | _, _, .snapshot .. => isTrue trivial
  | _, _, .hand .. => isTrue trivial
  | _, _, .drop .. => isTrue trivial
  | _, _, .cancel _ => isTrue trivial

def FairStep (c : SimulatorSettings) (s : TradingFloor n) (ev : FloorEvent n)
    (t : TradingFloor n) : Prop := Step c s ev t ∧ Fair s t ev

/-- No order is dropped, and none is turned away by its engine. -/
def Lossless (s : TradingFloor n) : FloorEvent n → Prop
  | .hand i _ _ => (s.engine i).mEngine.engine.mIncomingOrders.items.length < 65536
  | .drop _ _ => False
  | _ => True

instance : (s : TradingFloor n) → (ev : FloorEvent n) → Decidable (s.Lossless ev)
  | s, .hand i _ _ => inferInstanceAs
      (Decidable ((s.engine i).mEngine.engine.mIncomingOrders.items.length < 65536))
  | _, .drop .. => isFalse False.elim
  | _, .simulator _ => isTrue trivial
  | _, .snapshot .. => isTrue trivial
  | _, .sweep _ => isTrue trivial
  | _, .process _ => isTrue trivial
  | _, .cancel _ => isTrue trivial

/-- The matching engine of a symbol is in the state of a naive one that has processed `log`, and has
counted what that counts; what it has processed and what is pending was taken from the bots, in this
order. -/
structure Follows (s : TradingFloor n) (i : Fin n)
    (ts : List (TradingFloor n × FloorEvent n × TradingFloor n)) (e : NaiveEngine)
    (log : List (OrderPtr × Order)) : Prop where
  tracks : Tracks (s.run i) e
  counts : (⟨e.book, (s.run i).engine.getStats⟩ : RefEngine) =
    ({} : RefEngine).processAll (fun _ => true) log
  given : (log ++ e.pending).map Prod.snd <+ (taken i ts).map Order.prepared
  whole : (∀ x ∈ ts, x.1.Lossless x.2.1) →
    (log ++ e.pending).map Prod.snd = (taken i ts).map Order.prepared
  held : ∀ p ∈ e.given, p ∈ s.botStorage i
  labels : ∀ p ∈ e.processed, ((s.run i).orders p).label ∈ log.map fun x => x.2.label

theorem follows_start (i : Fin n) : (start symbols shared q).Follows i [] {} [] where
  tracks := {
    intact := Session.intact_start (symbols i)
    refers := Session.reference_start (symbols i)
    queue := rfl
    held := fun x hx => by cases hx
    ids := fun x hx => by cases hx
    distinct := .nil }
  counts := rfl
  given := List.Sublist.refl _
  whole _ := rfl
  held p hp := by cases hp
  labels p hp := by cases hp

theorem taken_none (hev : ev.taken i = none) : taken i (ts ++ [(s, ev, t)]) = taken i ts := by
  rw [taken_snoc, hev, Option.toList_none, List.append_nil]

theorem Follows.frame (h : s.Follows i ts e log)
    (hengine : (t.engine i).mEngine.engine = (s.engine i).mEngine.engine)
    (horders : (t.engine i).mEngine.orders = (s.engine i).mEngine.orders)
    (hrisk : t.shared.riskManager = s.shared.riskManager)
    (hstorage : t.botStorage i = s.botStorage i) (hev : ev.taken i = none) :
    t.Follows i (ts ++ [(s, ev, t)]) e log := by
  have htaken : taken i (ts ++ [(s, ev, t)]) = taken i ts := taken_none hev
  refine ⟨h.tracks.elsewhere hengine hrisk fun q _ => congrFun horders q, ?_, ?_, fun hl => ?_,
    fun p hp => ?_, fun p hp => ?_⟩
  · rw [show (t.run i).engine = (s.run i).engine from hengine]
    exact h.counts
  · rw [htaken]
    exact h.given
  · rw [htaken]
    exact h.whole fun x hx => hl x (List.mem_append_left _ hx)
  · rw [hstorage]
    exact h.held p hp
  · rw [show (t.run i).orders = (s.run i).orders from horders]
    exact h.labels p hp

theorem whole_taken (hev : ev.taken i = some o) :
    (taken i (ts ++ [(s, ev, t)])).map Order.prepared =
      (taken i ts).map Order.prepared ++ [o.prepared] := by
  rw [taken_snoc, hev, List.map_append]
  rfl

theorem run_hand (ht : t = { s.putStorage i ((s.storage i).submit p o) with manager := m }) :
    t.run i = (EngineRun.submitOrder (some p)
      { s.run i with orders := Function.update (s.run i).orders p o.prepared }).2 := by
  subst ht
  exact congrArg (fun u : SymbolEngine => { u.mEngine with shared := s.shared })
    (engine_putEngine_self s i _)

theorem Follows.id_given (h : s.Follows i ts e log) {x : OrderPtr × Order}
    (hx : x ∈ log ++ e.pending) : x.2.orderId ∈ (taken i ts).map Order.orderId := by
  obtain ⟨o, ho, he⟩ := List.mem_map.1 (h.given.subset (List.mem_map_of_mem (f := Prod.snd) hx))
  have hsame : o.orderId = x.2.orderId := by
    rw [← he]
    rfl
  exact List.mem_map.2 ⟨o, ho, hsame⟩

theorem Follows.id_processed (h : s.Follows i ts e log) (hp : p ∈ e.processed) :
    ((s.run i).orders p).orderId ∈ (taken i ts).map Order.orderId := by
  obtain ⟨x, hx, he⟩ := List.mem_map.1 (h.labels p hp)
  have hsame : x.2.orderId = ((s.run i).orders p).orderId := congrArg Prod.fst he
  rw [← hsame]
  exact h.id_given (List.mem_append_left _ hx)

theorem Follows.hand (h : s.Follows i ts e log) (hp : p ∉ s.botStorage i)
    (hid : o.orderId ∉ (taken i ts).map Order.orderId)
    (hrisk : s.shared.checkRisk o.prepared = true)
    (ht : t = { s.putStorage i ((s.storage i).submit p o) with manager := m }) :
    t.Follows i (ts ++ [(s, .hand i p o, t)]) (e.submit p o.prepared) log := by
  have hpprocessed : p ∉ e.processed := fun hm => hp (h.held p (List.mem_append_right _ hm))
  have hppending : p ∉ e.pending.map Prod.fst := fun hm => hp (h.held p (List.mem_append_left _ hm))
  have hrun := run_hand ht
  have hstorage : t.botStorage i = s.botStorage i ++ [p] := by
    rw [ht]
    exact Function.update_self ..
  have htaken : (taken i (ts ++ [(s, .hand i p o, t)])).map Order.prepared =
      (taken i ts).map Order.prepared ++ [o.prepared] := whole_taken (if_pos rfl)
  have htracks : Tracks (t.run i) (e.submit p o.prepared) := by
    rw [hrun]
    exact h.tracks.submit hpprocessed hppending (fun q hq he => hid (he ▸ h.id_processed hq))
      (fun x hx he => hid (he ▸ h.id_given (List.mem_append_right _ hx))) o.fresh_prepared hrisk
  obtain ⟨hprocessed, hbook⟩ := e.submit_frame p o.prepared
  refine ⟨htracks, ?_, ?_, fun hl => ?_, fun p' hp' => ?_, fun p' hp' => ?_⟩
  · rw [hbook, ← h.counts, hrun]
    rfl
  · rw [htaken]
    rcases e.submit_cases p o.prepared with ⟨-, he⟩ | ⟨-, he⟩ <;> rw [he]
    · rw [← List.append_assoc, List.map_append]
      exact h.given.append (List.Sublist.refl _)
    · exact h.given.trans (List.sublist_append_left ..)
  · obtain ⟨hold, hroom⟩ := List.forall_mem_append.1 hl
    have hroom : (s.engine i).mEngine.engine.mIncomingOrders.items.length < 65536 :=
      hroom _ (List.mem_singleton_self _)
    have hqueue := congrArg List.length h.tracks.queue
    change (s.engine i).mEngine.engine.mIncomingOrders.items.length = _ at hqueue
    rw [List.length_map] at hqueue
    rw [htaken]
    rcases e.submit_cases p o.prepared with ⟨-, he⟩ | ⟨hfull, -⟩
    · rw [he, ← List.append_assoc, List.map_append, h.whole hold]
      rfl
    · omega
  · rw [hstorage]
    rcases NaiveEngine.given_submit hp' with hp' | rfl
    · exact List.mem_append_left _ (h.held p' hp')
    · exact List.mem_append_right _ (List.mem_singleton_self _)
  · rw [hprocessed] at hp'
    have hcell : (t.run i).orders p' = (s.run i).orders p' := by
      rw [hrun]
      exact Function.update_of_ne (fun he : p' = p => hpprocessed (he ▸ hp')) ..
    rw [hcell]
    exact h.labels p' hp'

/-- A sweep lets go of cells that neither the book nor the queue refers to. -/
theorem Follows.sweep (h : s.Follows i ts e log) (hclean : (s.storage i).CleanSweep .sweep)
    (ht : t = { s.putStorage i (s.storage i).sweep with
      handing := Function.update s.handing i false }) :
    t.Follows i (ts ++ [(s, .sweep i, t)])
      { e with processed := e.processed.filter fun p => ((s.run i).orders p).isActive } log := by
  have hrun : t.run i = s.run i := by
    subst ht
    exact congrArg (fun u : SymbolEngine => { u.mEngine with shared := s.shared })
      (engine_putEngine_self s i _)
  have hstorage : t.botStorage i = (s.storage i).sweep.botStorage := by
    rw [ht]
    exact Function.update_self ..
  have htaken : taken i (ts ++ [(s, .sweep i, t)]) = taken i ts := taken_none rfl
  have hnarrow := h.tracks.narrow fun side l hl p hp =>
    OrderStorage.isActive_iff.2 (hclean side l hl p hp)
  refine ⟨hrun.symm ▸ hnarrow, hrun.symm ▸ h.counts, ?_, fun hl => ?_, fun p hp => ?_,
    fun p hp => ?_⟩
  · rw [htaken]
    exact h.given
  · rw [htaken]
    exact h.whole fun x hx => hl x (List.mem_append_left _ hx)
  · rw [hstorage]
    rcases List.mem_append.1 hp with hp | hp
    · obtain ⟨x, hx, rfl⟩ := List.mem_map.1 hp
      obtain ⟨hcell, hfresh, -⟩ := h.tracks.held x hx
      refine mem_sweep.2 ⟨h.held x.1 (List.mem_append_left _ hp), ?_⟩
      change ((s.run i).orders x.1).isActive = true
      rw [hcell]
      exact hfresh.active
    · obtain ⟨hp, hactive⟩ := List.mem_filter.1 hp
      exact mem_sweep.2 ⟨h.held p (List.mem_append_right _ hp), hactive⟩
  · rw [hrun]
    exact h.labels p (List.mem_of_mem_filter hp)

theorem Follows.process (h : s.Follows i ts e log) {r : EngineRun}
    (hturn : (s.run i).matchCycleBody = some (.inr r)) (hroom : r.engine.mOrderBook.Roomy)
    (ht : t = { s.putEngine i r with shared := r.shared }) :
    ∃ e' log', t.Follows i (ts ++ [(s, .process i, t)]) e' log' := by
  obtain ⟨p, qs, out, hitems, -⟩ := EngineRun.turn_spec hturn
  have hqueue := h.tracks.queue
  rw [hitems] at hqueue
  obtain ⟨⟨p', o⟩, ps, hpending, hp, hqs⟩ := List.map_eq_cons_iff.1 hqueue.symm
  obtain rfl : p' = p := hp
  have hrun : t.run i = r := by
    subst ht
    exact congrArg (fun u : SymbolEngine => { u.mEngine with shared := r.shared })
      (engine_putEngine_self s i _)
  have htaken : taken i (ts ++ [(s, .process i, t)]) = taken i ts := taken_none rfl
  have hrest : (e.process (p', o)).pending = ps := by
    change e.pending.tail = ps
    rw [hpending, List.tail_cons]
  have hgiven : log ++ [(p', o)] ++ (e.process (p', o)).pending = log ++ e.pending := by
    rw [hrest, hpending, List.append_assoc, List.singleton_append]
  obtain ⟨hself, hknown⟩ := h.tracks.turn_label hpending hturn
  refine ⟨e.process (p', o), log ++ [(p', o)], hrun.symm ▸ h.tracks.turn hpending hturn hroom, ?_, ?_,
    fun hl => ?_, fun q hq => ?_, fun q hq => ?_⟩
  · rw [RefEngine.processAll, List.foldl_append, hrun, ← h.tracks.turn_counts hpending hturn hroom,
      h.counts]
    rfl
  · rw [hgiven, htaken]
    exact h.given
  · rw [hgiven, htaken]
    exact h.whole fun x hx => hl x (List.mem_append_left _ hx)
  · have hstorage : t.botStorage i = s.botStorage i := by rw [ht]; rfl
    rw [hstorage]
    refine h.held q ?_
    rw [NaiveEngine.given, hrest] at hq
    rw [NaiveEngine.given, hpending]
    rcases List.mem_append.1 hq with hq | hq
    · exact List.mem_append_left _ (List.mem_cons_of_mem _ hq)
    · rcases List.mem_cons.1 hq with rfl | hq
      · exact List.mem_append_left _ List.mem_cons_self
      · exact List.mem_append_right _ hq
  · rw [hrun, List.map_append]
    rcases List.mem_cons.1 hq with rfl | hq
    · rw [hself]
      exact List.mem_append_right _ (List.mem_singleton_self _)
    · rw [hknown q hq]
      exact List.mem_append_left _ (h.labels q hq)

theorem Follows.drop (h : s.Follows i ts e log) (ht : t = { s with manager := m }) :
    t.Follows i (ts ++ [(s, .drop i o, t)]) e log := by
  have htaken : (taken i (ts ++ [(s, .drop i o, t)])).map Order.prepared =
      (taken i ts).map Order.prepared ++ [o.prepared] := whole_taken (if_pos rfl)
  refine ⟨ht ▸ h.tracks, ht ▸ h.counts, ?_, fun hl => ?_, ht ▸ h.held, ht ▸ h.labels⟩
  · rw [htaken]
    exact h.given.trans (List.sublist_append_left ..)
  · exact ((List.forall_mem_append.1 hl).2 _ (List.mem_singleton_self _)).elim

theorem Delivered.next (h : s.Delivered symbols ts)
    (hids : ((ordersFor (symbols i) s.submitted).map Order.orderId).Nodup)
    (hpop : s.manager.popOrderForSymbol (s.engine i).symbol = some (o, m)) :
    o.orderId ∉ (taken i ts).map Order.orderId ∧ ∃ x ∈ s.submitted, x.order = o := by
  rw [h.symbol i] at hpop
  obtain ⟨hself, -⟩ := BotManager.popOrderForSymbol_spec hpop
  have haccount := h.account i
  rw [hself] at haccount
  rw [haccount, List.map_append, List.nodup_append] at hids
  have hmem : o ∈ ordersFor (symbols i) s.submitted := by
    rw [haccount]
    exact List.mem_append_right _ List.mem_cons_self
  obtain ⟨x, hx, he⟩ := List.mem_map.1 hmem
  exact ⟨fun hm => hids.2.2 _ hm _ List.mem_cons_self rfl, x, List.mem_of_mem_filter hx, he⟩

theorem turn_risk {r u : EngineRun} (h : r.matchCycleBody = some (.inr u)) :
    u.shared.riskManager = r.shared.riskManager := by
  obtain ⟨p, ps, out, -, hc⟩ := EngineRun.turn_spec h
  have hrisk := EngineRun.processOrder_risk hc
  exact hrisk

theorem FairStep.follows (hst : FairStep c s ev t) (hd : s.Delivered symbols ts)
    (hno : ∀ id, ev ≠ .cancel id)
    (hids : ((ordersFor (symbols i) t.submitted).map Order.orderId).Nodup)
    (hrisk : ∀ x ∈ t.submitted, s.shared.checkRisk x.order.prepared = true)
    (h : s.Follows i ts e log) : ∃ e' log', t.Follows i (ts ++ [(s, ev, t)]) e' log' := by
  obtain ⟨hst, hfair⟩ := hst
  have hother : ∀ {j} (r : EngineRun), j ≠ i →
      ((s.putEngine j r).engine i).mEngine = (s.engine i).mEngine := fun r hj =>
    congrArg SymbolEngine.mEngine (engine_putEngine_other hj.symm s r)
  cases hst with
  | simulator hsim =>
    exact ⟨e, log, h.frame (congrArg EngineRun.engine (hsim.engine i))
      (congrArg EngineRun.orders (hsim.engine i)) rfl rfl rfl⟩
  | snapshot => exact ⟨e, log, h.frame rfl rfl rfl rfl rfl⟩
  | @hand j m o cell hj hpop hp =>
    by_cases hij : j = i
    · subst hij
      obtain ⟨hnew, x, hx, rfl⟩ := hd.next hids hpop
      exact ⟨_, _, h.hand hp.2 hnew (hrisk x hx) rfl⟩
    · exact ⟨e, log, h.frame (congrArg EngineRun.engine (hother _ hij))
        (congrArg EngineRun.orders (hother _ hij)) rfl (Function.update_of_ne (Ne.symm hij) ..)
        (if_neg hij)⟩
  | @drop j m o hj hpop hp =>
    by_cases hij : j = i
    · subst hij
      exact ⟨_, _, h.drop rfl⟩
    · exact ⟨e, log, h.frame rfl rfl rfl rfl (if_neg hij)⟩
  | @sweep j hj hpop =>
    by_cases hij : j = i
    · subst hij
      exact ⟨_, _, h.sweep hfair rfl⟩
    · exact ⟨e, log, h.frame (congrArg EngineRun.engine (hother _ hij))
        (congrArg EngineRun.orders (hother _ hij)) rfl (Function.update_of_ne (Ne.symm hij) ..) rfl⟩
  | @process j r hturn =>
    by_cases hij : j = i
    · subst hij
      refine h.process hturn ?_ rfl
      have hroom : ((s.putEngine j r).engine j).mEngine.engine.mOrderBook.Roomy := hfair
      rwa [engine_putEngine_self] at hroom
    · exact ⟨e, log, h.frame (congrArg EngineRun.engine (hother _ hij))
        (congrArg EngineRun.orders (hother _ hij)) (turn_risk hturn) rfl rfl⟩
  | cancel => exact absurd rfl (hno _)

theorem Step.grows (hst : Step c s ev t) : s.submitted <+: t.submitted ∧
    t.shared.riskManager = s.shared.riskManager := by
  cases hst with
  | simulator | hand | drop | sweep => exact ⟨List.prefix_rfl, rfl⟩
  | snapshot => exact ⟨List.prefix_append .., rfl⟩
  | process hturn => exact ⟨List.prefix_rfl, turn_risk hturn⟩
  | cancel =>
    exact cancelLoop_invariant
      (I := fun u => s.submitted <+: u.submitted ∧ u.shared.riskManager = s.shared.riskManager)
      (fun _ _ _ hu => hu) _ _ ⟨List.prefix_rfl, rfl⟩

/-- Orders for one symbol differ in their ids, and all of them pass the risk check. -/
structure Orderly (symbols : Fin n → List UInt8) (shared : Collaborators)
    (xs : List Submission) : Prop where
  ids : ∀ i, ((ordersFor (symbols i) xs).map Order.orderId).Nodup
  passes : ∀ x ∈ xs, shared.checkRisk x.order.prepared = true

theorem Orderly.of_prefix {xs ys : List Submission} (h : Orderly symbols shared ys)
    (hxs : xs <+: ys) : Orderly symbols shared xs where
  ids i := (h.ids i).sublist ((hxs.sublist.filter _).map _ |>.map _)
  passes x hx := h.passes x (hxs.subset hx)

theorem follows_of_runs (hinj : Function.Injective symbols) (hs : ∀ i, FitsOrder (symbols i))
    (h : Runs (FairStep c) (start symbols shared q) ts s)
    (ho : Orderly symbols shared s.submitted) :
    s.shared.riskManager = shared.riskManager ∧ ∀ i, ∃ e log, s.Follows i ts e log := by
  induction h with
  | nil => exact ⟨rfl, fun i => ⟨{}, [], follows_start i⟩⟩
  | @snoc ts s ev t h hst ih =>
    have hruns := h.mono (Q := Step c) fun _ _ _ hst => hst.1
    obtain ⟨hgrows, hshared⟩ := hst.1.grows
    obtain ⟨hmanager, hfollows⟩ := ih (ho.of_prefix hgrows)
    have hno := (delivered_of_runs hinj hs (hruns.snoc hst.1)).2 _
      (List.mem_append_right _ (List.mem_singleton_self _))
    refine ⟨hshared.trans hmanager, fun i => ?_⟩
    obtain ⟨e, log, hi⟩ := hfollows i
    refine hst.follows (delivered_of_runs hinj hs hruns).1 hno (ho.ids i) (fun x hx => ?_) hi
    rw [Collaborators.checkRisk, hmanager]
    exact ho.passes x hx

/-- From the bots to the books: in any order of the threads' moves in which the sweeps are clean and no
ring overflows, the book a matching engine trades in and its statistics are those of a naive engine,
which was given orders that the bots submitted for the symbol, in the order of their submission; the
orders that follow are in the queue. None is missing unless a pool ran dry or a queue was full: what
has been processed, what is queued and what still waits for its thread are then all the orders
submitted. -/
theorem floor_refines (hinj : Function.Injective symbols) (hs : ∀ i, FitsOrder (symbols i))
    (h : Runs (FairStep c) (start symbols shared q) ts s)
    (ho : Orderly symbols shared s.submitted) (i : Fin n) :
    ∃ log pending : List (OrderPtr × Order),
      (⟨s.reference i, (s.engine i).getStats⟩ : RefEngine) =
        ({} : RefEngine).processAll (fun _ => true) log ∧
      (s.engine i).mEngine.engine.mIncomingOrders.items = pending.map Prod.fst ∧
      (log ++ pending).map Prod.snd <+ (ordersFor (symbols i) s.submitted).map Order.prepared ∧
      ((∀ x ∈ ts, x.1.Lossless x.2.1) →
        (log ++ pending).map Prod.snd ++ (s.manager.waiting (symbols i)).map Order.prepared =
          (ordersFor (symbols i) s.submitted).map Order.prepared) := by
  obtain ⟨e, log, hf⟩ := (follows_of_runs hinj hs h ho).2 i
  have hd := (delivered_of_runs hinj hs (h.mono fun _ _ _ hst => hst.1)).1
  have haccount : (ordersFor (symbols i) s.submitted).map Order.prepared =
      (taken i ts).map Order.prepared ++ (s.manager.waiting (symbols i)).map Order.prepared := by
    rw [hd.account i, List.map_append]
  refine ⟨log, e.pending, ?_, hf.tracks.queue, ?_, fun hl => ?_⟩
  · exact (congrArg (RefEngine.mk · _) hf.tracks.refers).trans hf.counts
  · rw [haccount]
    exact hf.given.trans (List.sublist_append_left ..)
  · rw [haccount, hf.whole hl]

theorem exists_fair_sample_run (shared : Collaborators)
    (ok : List (TradingFloor 10 × FloorEvent 10 × TradingFloor 10) → TradingFloor 10 → Bool)
    (h : (Runs.play (perform highOpening (Simulation.startSymbols letters fun _ => shared))
      (start letters shared 500) sampleCalls).any
        (fun x => x.1.all (fun y => Fair y.1 y.2.2 y.2.1) && ok x.1 x.2) = true) :
    ∃ ts t, Runs (FairStep highOpening) (start letters shared 500) ts t ∧ ok ts t = true := by
  obtain ⟨ts, t, hruns, hok⟩ := exists_sample_run shared
    (fun ts t => ts.all (fun y => Fair y.1 y.2.2 y.2.1) && ok ts t) h
  rw [Bool.and_eq_true, List.all_eq_true] at hok
  have hfair : Runs (FairStep highOpening) (start letters shared 500) ts t :=
    hruns.restrict (C := fun s ev t => Fair s t ev) fun x hx => of_decide_eq_true (hok.1 x hx)
  exact ⟨ts, t, hfair, hok.2⟩

/-- The last engine has processed both orders submitted for its symbol, and matched them. -/
theorem floor_refines_sample : ∃ ts, ∃ s : TradingFloor 10,
    Runs (FairStep highOpening) (start letters {} 500) ts s ∧
    (s.engine 9).getStats = ⟨1, 0, 0⟩ ∧
    ∃ log : List (OrderPtr × Order), log.map Prod.snd =
        (ordersFor (letters 9) s.submitted).map Order.prepared ∧
      (log.map fun x => x.2.orderId) = [50001, 20001] ∧
      (⟨s.reference 9, (s.engine 9).getStats⟩ : RefEngine) =
        ({} : RefEngine).processAll (fun _ => true) log := by
  obtain ⟨ts, s, h, hok⟩ := exists_fair_sample_run {}
    (fun ts s => ts.all (fun x => x.1.Lossless x.2.1) &&
      decide ((s.engine 9).getStats = ⟨1, 0, 0⟩ ∧
        (∀ i, ((ordersFor (letters i) s.submitted).map Order.orderId).Nodup) ∧
        (ordersFor (letters 9) s.submitted).map Order.orderId = [50001, 20001] ∧
        (s.engine 9).mEngine.engine.mIncomingOrders.items = [] ∧
        s.manager.waiting (letters 9) = [])) (by decide +kernel)
  rw [Bool.and_eq_true, List.all_eq_true] at hok
  obtain ⟨hstats, hnodup, hids, hempty, hnone⟩ := of_decide_eq_true hok.2
  obtain ⟨log, pending, hbook, hqueue, -, hwhole⟩ := floor_refines letters_injective
    fitsOrder_letters h ⟨hnodup, fun _ _ => rfl⟩ 9
  rw [hempty] at hqueue
  obtain rfl := List.map_eq_nil_iff.1 hqueue.symm
  have hlog := hwhole fun x hx => of_decide_eq_true (hok.1 x hx)
  rw [hnone, List.map_nil, List.append_nil, List.append_nil] at hlog
  refine ⟨ts, s, h, hstats, log, hlog, ?_, hbook⟩
  have hlabels := congrArg (List.map Order.orderId) hlog
  rw [List.map_map, List.map_map] at hlabels
  exact hlabels.trans hids

end TradingFloor

end Velox
