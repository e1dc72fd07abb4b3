import Velox.SimulatorTicks
import Velox.TradingFloor

namespace Velox
set_option autoImplicit true

namespace BookSnapshotManager

variable {m : BookSnapshotManager} {depth : ℕ} {P Q : OrderBook → Prop} {b : OrderBook}

/-- The valid snapshots in the nodes are those of books with a property. -/
structure Shows (depth : ℕ) (P : OrderBook → Prop) (m : BookSnapshotManager) : Prop where
  depth_eq : m.mDepth = depth
  lengths : ∀ n, (m.snapshot n).bids.length = depth ∧ (m.snapshot n).asks.length = depth
  books : ∀ n, (m.snapshot n).valid = true → ∃ b, P b ∧ m.snapshot n = .ofBook depth b

theorem shows_new (depth : ℕ) (P : OrderBook → Prop) : (new depth).Shows depth P where
  depth_eq := rfl
  lengths _ := ⟨List.length_replicate, List.length_replicate⟩
  books n h := by
    rw [snapshot_new] at h
    cases h

theorem Shows.mono (h : m.Shows depth P) (hPQ : ∀ b, P b → Q b) : m.Shows depth Q where
  depth_eq := h.depth_eq
  lengths := h.lengths
  books n hn := by
    obtain ⟨b, hb, he⟩ := h.books n hn
    exact ⟨b, hPQ b hb, he⟩

theorem Shows.update (h : m.Shows depth P) (hb : P b) : (m.update b).Shows depth P := by
  rw [BookSnapshotManager.update]
  cases m.findFreeNode with
  | none => exact h
  | some n =>
    obtain ⟨hbids, hasks⟩ := h.lengths n
    have hself : (m.write n (.apply (captureSnapshot m.mDepth b))).snapshot n = .ofBook depth b := by
      rw [snapshot_write, h.depth_eq]
      exact BookSnapshot.apply_captureSnapshot b hbids hasks
    have hnode : ∀ k, (m.write n (.apply (captureSnapshot m.mDepth b))).snapshot k =
        .ofBook depth b ∨ (m.write n (.apply (captureSnapshot m.mDepth b))).snapshot k =
          m.snapshot k := fun k => by
      by_cases hk : k = n
      · exact .inl (hk ▸ hself)
      · exact .inr (snapshot_write_of_ne _ hk)
    refine ⟨h.depth_eq, fun k => ?_, fun k hk => ?_⟩
    · change (BookSnapshot.bids (snapshot (m.write n _) k)).length = depth ∧
        (BookSnapshot.asks (snapshot (m.write n _) k)).length = depth
      rcases hnode k with he | he <;> rw [he]
      · exact ⟨BookSnapshot.length_shown b depth true, BookSnapshot.length_shown b depth false⟩
      · exact h.lengths k
    · change (snapshot (m.write n _) k).valid = true at hk
      change ∃ b, P b ∧ snapshot (m.write n _) k = _
      rcases hnode k with he | he <;> rw [he] at hk ⊢
      · exact ⟨b, hb, rfl⟩
      · exact h.books k hk

theorem Shows.pin (h : m.Shows depth P) (n : NodePtr) : (m.pin n).Shows depth P where
  depth_eq := h.depth_eq
  lengths k := by
    rw [snapshot_pin]
    exact h.lengths k
  books k hk := by
    rw [snapshot_pin] at hk ⊢
    exact h.books k hk

end BookSnapshotManager

namespace SnapshotLoop

variable {s t : SnapshotLoop} {depth : ℕ} {P : OrderBook → Prop} {b : OrderBook}

theorem iterate_shows (h : s.manager.Shows depth P) (hb : P b) (ht : s.iterate b = some t) :
    t.manager.Shows depth P ∧ ∀ snap, t.handed = some snap → ∃ b, P b ∧ snap = .ofBook depth b := by
  have hu := h.update hb
  rw [iterate] at ht
  cases hc : (s.manager.update b).mCurrent with
  | none =>
    have hbody : BookSnapshotManager.getSnapshotBody (none, s.manager.update b) =
        some (.inl (none, s.manager.update b)) := by
      simp only [BookSnapshotManager.getSnapshotBody, hc]
    have hget : (s.manager.update b).getSnapshot = some (none, s.manager.update b) :=
      Loop.run_leave hbody 0
    rw [hget] at ht
    obtain rfl := Option.some.inj ht
    exact ⟨hu, fun snap he => by cases he⟩
  | some n =>
    rw [BookSnapshotManager.getSnapshot_eq hc, Option.map_some] at ht
    obtain rfl := Option.some.inj ht
    dsimp only
    rw [BookSnapshotManager.snapshot_pin]
    split_ifs with hvalid
    · refine ⟨?_, fun snap he => ?_⟩
      · rw [BookSnapshotManager.releaseSnapshot, BookSnapshotManager.unpin_pin]
        exact hu
      · obtain rfl := Option.some.inj he
        exact hu.books n hvalid
    · exact ⟨hu.pin n, fun snap he => by cases he⟩

end SnapshotLoop

/-- The same books shown, before another matching engine. -/
def SimulatorRun.veil (e : EngineRun) (s : SimulatorRun) : SimulatorRun :=
  { s with engine.mEngine := e }

namespace SimulatorRun

variable {pool : Option OrderCell × Option OrderCell}

theorem initializeRestingOrders_veil (e : EngineRun) (price : Int64) (s : SimulatorRun) :
    (s.veil e).initializeRestingOrders price pool =
      (s.initializeRestingOrders price pool).map (veil e) := by
  obtain ⟨bid, ask⟩ := pool
  cases bid <;> cases ask <;> rfl

theorem updateRestingOrders_veil (e : EngineRun) (x y : Int64) (s : SimulatorRun) :
    (s.veil e).updateRestingOrders x y pool = (s.updateRestingOrders x y pool).map (veil e) := by
  have hsymbol : (s.veil e).sim.mSymbolOrders (s.veil e).engine.symbol =
      s.sim.mSymbolOrders s.engine.symbol := rfl
  obtain ⟨bid, ask⟩ := pool
  rw [updateRestingOrders, updateRestingOrders, hsymbol]
  cases s.sim.mSymbolOrders s.engine.symbol with
  | none => rfl
  | some orders =>
    dsimp only
    split_ifs
    · rfl
    · cases bid <;> cases ask <;> rfl

end SimulatorRun

namespace Simulation

variable {n : ℕ} {s t : Simulation n} {pool : Option OrderCell × Option OrderCell}

def veil (f : Fin n → EngineRun) (s : Simulation n) : Simulation n :=
  { s with engines := fun i => { s.engines i with mEngine := f i } }

theorem update_veil (f : Fin n → EngineRun) (es : Fin n → SymbolEngine) (i : Fin n)
    (e : SymbolEngine) :
    Function.update (fun j => ({ es j with mEngine := f j } : SymbolEngine)) i
        { e with mEngine := f i } =
      fun j => { Function.update es i e j with mEngine := f j } := by
  funext j
  by_cases hj : j = i
  · subst hj
    rw [Function.update_self, Function.update_self]
  · rw [Function.update_of_ne hj, Function.update_of_ne hj]

theorem put_veil (f : Fin n → EngineRun) (s : Simulation n) (i : Fin n) (r : SimulatorRun)
    (prices : Option (Int64 × Int64)) :
    (s.veil f).put i (r.veil (f i)) prices = (s.put i r prices).veil f := by
  rw [put, put, veil, veil]
  congr 1
  exact update_veil f s.engines i r.engine

theorem perform_veil (pool : Option OrderCell × Option OrderCell) (f : Fin n → EngineRun)
    (s : Simulation n) (c : SimulatorCall n) :
    (s.veil f).perform pool c = (s.perform pool c).map (veil f) := by
  have hrun : ∀ i, (s.veil f).run i = (s.run i).veil (f i) := fun _ => rfl
  cases c with
  | init i price =>
    rw [perform, perform, hrun, SimulatorRun.initializeRestingOrders_veil, Option.map_map,
      Option.map_map]
    exact Option.map_congr fun r _ => put_veil f s i r _
  | update i x y =>
    rw [perform, perform, hrun, SimulatorRun.updateRestingOrders_veil, Option.map_map,
      Option.map_map]
    exact Option.map_congr fun r _ => put_veil f s i r _

theorem setMarketPrice_veil (f : Fin n → EngineRun) (s : Simulation n) (i : Fin n)
    (bid ask : Int64) :
    (s.veil f).setMarketPrice i bid ask = (s.setMarketPrice i bid ask).veil f := by
  rw [setMarketPrice, setMarketPrice, veil, veil]
  congr 1
  exact update_veil f s.engines i ((s.engines i).setMarketPrice bid ask)

end Simulation

namespace SimulatorThread

variable {n : ℕ} {c : SimulatorSettings} {s t : SimulatorThread n} {e : SimulatorEvent n}
  {pool : Option OrderCell × Option OrderCell} {i : Fin n} {delta spread : Int64}

def veil (f : Fin n → EngineRun) (s : SimulatorThread n) : SimulatorThread n :=
  { s with market := s.market.veil f }

theorem open_veil (f : Fin n → EngineRun) (s : SimulatorThread n) :
    (s.veil f).open c i pool = (s.open c i pool).map (veil f) := by
  have hperform := Simulation.perform_veil pool f s.market
    (.init i (c.getInitialPrice (s.symbol i)))
  rw [«open», «open», Option.map_map]
  refine (congrArg (Option.map _) hperform).trans ?_
  rw [Option.map_map]
  rfl

theorem tick_veil (f : Fin n → EngineRun) (s : SimulatorThread n) :
    (s.veil f).tick i delta spread pool = (s.tick i delta spread pool).map (veil f) := by
  have hmarket := Simulation.setMarketPrice_veil f s.market i
    (bidAsk (randomWalk (s.currentPrices (s.symbol i)) delta) spread).1
    (bidAsk (randomWalk (s.currentPrices (s.symbol i)) delta) spread).2
  rw [tick, tick]
  dsimp only
  change (if (randomWalk (s.currentPrices (s.symbol i)) delta - s.lastUpdatePrice (s.symbol i)).abs > 10
    then _ else _) = _
  change (s.veil f).market.setMarketPrice i _ _ = _ at hmarket
  split_ifs with hmove
  · have hperform := Simulation.perform_veil pool f (s.market.setMarketPrice i
      (bidAsk (randomWalk (s.currentPrices (s.symbol i)) delta) spread).1
      (bidAsk (randomWalk (s.currentPrices (s.symbol i)) delta) spread).2) (.update i
      (bidAsk (randomWalk (s.currentPrices (s.symbol i)) delta) spread).1
      (bidAsk (randomWalk (s.currentPrices (s.symbol i)) delta) spread).2)
    rw [← hmarket] at hperform
    refine (congrArg (Option.map _) hperform).trans ?_
    rw [Option.map_map, Option.map_map]
    rfl
  · refine congrArg some ?_
    rw [veil]
    congr 1

/-- What stands behind the books shown makes no difference to the simulator. -/
theorem Step.veil (h : Step c s e t) (f : Fin n → EngineRun) : Step c (s.veil f) e (t.veil f) := by
  cases h with
  | «open» hi hp h => exact .open hi hp (by rw [open_veil, h]; rfl)
  | tick hn hi hd hp h => exact .tick hn hi hd hp (by rw [tick_veil, h]; rfl)

end SimulatorThread

namespace TradingFloor

variable {n : ℕ} {c : SimulatorSettings} {s t : TradingFloor n} {ev : FloorEvent n} {i : Fin n}
  {symbols : Fin n → List UInt8} {shared : Collaborators} {q : UInt32}
  {ts : List (TradingFloor n × FloorEvent n × TradingFloor n)}
  {us : List (SimulatorThread n × SimulatorEvent n × SimulatorThread n)} {b : OrderBook}

theorem putEngine_veil (s : TradingFloor n) (i : Fin n) (e : EngineRun) (f : Fin n → EngineRun) :
    (s.putEngine i e).thread.veil f = s.thread.veil f := by
  have hengines : ∀ j, ({ (s.putEngine i e).engine j with mEngine := f j } : SymbolEngine) =
      { s.engine j with mEngine := f j } := fun j => by
    by_cases hj : j = i
    · subst hj
      rw [engine_putEngine_self]
    · rw [engine_putEngine_other hj]
  exact congrArg (fun es => { s.thread with market := { s.thread.market with engines := es } })
    (funext hengines)

theorem Step.unseen (hst : Step c s ev t) (f : Fin n → EngineRun) :
    (∃ e, ev = .simulator e ∧ SimulatorThread.Step c (s.thread.veil f) e (t.thread.veil f)) ∨
      (ev.simulated = none ∧ t.thread.veil f = s.thread.veil f) := by
  cases hst with
  | simulator h => exact .inl ⟨_, rfl, h.veil f⟩
  | snapshot | drop => exact .inr ⟨rfl, rfl⟩
  | hand | sweep | process => exact .inr ⟨rfl, putEngine_veil ..⟩
  | cancel =>
    exact .inr ⟨rfl, cancelLoop_invariant (I := fun u => u.thread.veil f = s.thread.veil f)
      (fun u i e hu => (putEngine_veil u i e f).trans hu) _ _ rfl⟩

def built (symbols : Fin n → List UInt8) (shared : Collaborators) (i : Fin n) : EngineRun :=
  (SymbolEngine.new (symbols i) shared).mEngine

/-- A book that an engine shows at some time in a run of the simulator. -/
def ShownIn (c : SimulatorSettings) (symbols : Fin n → List UInt8) (shared : Collaborators)
    (q : UInt32) (us : List (SimulatorThread n × SimulatorEvent n × SimulatorThread n)) (i : Fin n)
    (b : OrderBook) : Prop :=
  ∃ vs v, vs <+: us ∧
    Runs (SimulatorThread.Step c) (.start symbols (fun _ => shared) q) vs v ∧ v.market.book i = b

theorem ShownIn.mono {vs : List (SimulatorThread n × SimulatorEvent n × SimulatorThread n)}
    (h : ShownIn c symbols shared q us i b) (hus : us <+: vs) : ShownIn c symbols shared q vs i b := by
  obtain ⟨ws, w, hws, hw⟩ := h
  exact ⟨ws, w, hws.trans hus, hw⟩

/-- The simulator's part of a run is a run of its own, and the nodes of the snapshot managers show
books of it. -/
structure Unseen (c : SimulatorSettings) (symbols : Fin n → List UInt8) (shared : Collaborators)
    (q : UInt32) (us : List (SimulatorThread n × SimulatorEvent n × SimulatorThread n))
    (s : TradingFloor n) : Prop where
  simulated : Runs (SimulatorThread.Step c) (.start symbols (fun _ => shared) q) us
    (s.thread.veil (built symbols shared))
  shows : ∀ i, (s.loops i).manager.Shows 5 (ShownIn c symbols shared q us i)

theorem unseen_start : (start symbols shared q).Unseen c symbols shared q [] where
  simulated := .nil
  shows _ := BookSnapshotManager.shows_new 5 _

theorem Step.loops (hst : Step c s ev t) :
    ((∀ i handed xs, ev ≠ .snapshot i handed xs) ∧ t.loops = s.loops) ∨
    ∃ i loop xs, ev = .snapshot i loop.handed xs ∧
      (s.loops i).iterate (s.engine i).orderBook = some loop ∧
      t.loops = Function.update s.loops i loop := by
  cases hst with
  | snapshot draws hi h => exact .inr ⟨_, _, _, rfl, h, rfl⟩
  | cancel =>
    exact .inl ⟨nofun, cancelLoop_invariant (I := fun u => u.loops = s.loops) (fun _ _ _ hu => hu)
      _ _ rfl⟩
  | _ => exact .inl ⟨nofun, rfl⟩

theorem Unseen.current (h : s.Unseen c symbols shared q us) (i : Fin n) :
    ShownIn c symbols shared q us i (s.engine i).orderBook :=
  ⟨us, _, List.prefix_refl us, h.simulated, rfl⟩

theorem Step.keeps_unseen (hst : Step c s ev t) (h : s.Unseen c symbols shared q us) :
    ∃ vs, us <+: vs ∧ (vs.map fun x => x.2.1) = (us.map fun x => x.2.1) ++ ev.simulated.toList ∧
      t.Unseen c symbols shared q vs ∧
      ∀ i snap xs, ev = .snapshot i (some snap) xs →
        ∃ b, ShownIn c symbols shared q vs i b ∧ snap = .ofBook 5 b := by
  obtain ⟨vs, hus, hvs, hrun⟩ : ∃ vs, us <+: vs ∧
      (vs.map fun x => x.2.1) = (us.map fun x => x.2.1) ++ ev.simulated.toList ∧
      Runs (SimulatorThread.Step c) (.start symbols (fun _ => shared) q) vs
        (t.thread.veil (built symbols shared)) := by
    rcases hst.unseen (built symbols shared) with ⟨e, rfl, hsim⟩ | ⟨he, hsame⟩
    · refine ⟨_, List.prefix_append .., ?_, h.simulated.snoc hsim⟩
      rw [List.map_append]
      rfl
    · refine ⟨us, List.prefix_refl us, ?_, hsame ▸ h.simulated⟩
      rw [he, Option.toList_none, List.append_nil]
  have hold : ∀ i, (s.loops i).manager.Shows 5 (ShownIn c symbols shared q vs i) := fun i =>
    (h.shows i).mono fun b hb => hb.mono hus
  refine ⟨vs, hus, hvs, ⟨hrun, fun i => ?_⟩, ?_⟩
  · rcases hst.loops with ⟨-, hsame⟩ | ⟨j, loop, xs, -, hiter, hloops⟩
    · rw [hsame]
      exact hold i
    · rw [hloops]
      by_cases hj : i = j
      · subst hj
        rw [Function.update_self]
        exact (SnapshotLoop.iterate_shows (hold i) ((h.current i).mono hus) hiter).1
      · rw [Function.update_of_ne hj]
        exact hold i
  · rintro i snap xs rfl
    rcases hst.loops with ⟨hno, -⟩ | ⟨j, loop, ys, he, hiter, -⟩
    · exact absurd rfl (hno i (some snap) xs)
    · obtain ⟨rfl, hhanded, -⟩ := FloorEvent.snapshot.inj he
      exact (SnapshotLoop.iterate_shows (hold i) ((h.current i).mono hus) hiter).2 snap hhanded.symm

theorem unseen_of_runs (h : Runs (Step c) (start symbols shared q) ts s) :
    ∃ us, (us.map fun x => x.2.1) = (ts.filterMap fun x => x.2.1.simulated) ∧
      s.Unseen c symbols shared q us ∧
      ∀ x ∈ ts, ∀ i snap xs, x.2.1 = .snapshot i (some snap) xs →
        ∃ b, ShownIn c symbols shared q us i b ∧ snap = .ofBook 5 b := by
  induction h with
  | nil => exact ⟨[], rfl, unseen_start, fun x hx => by cases hx⟩
  | snoc h hst ih =>
    obtain ⟨us, hus, hunseen, hshown⟩ := ih
    obtain ⟨vs, hprefix, hvs, hunseen', hnew⟩ := hst.keeps_unseen hunseen
    refine ⟨vs, ?_, hunseen', fun x hx i snap xs he => ?_⟩
    · rw [hvs, hus, List.filterMap_append]
      exact congrArg (_ ++ ·) (by rw [List.filterMap_cons]; cases FloorEvent.simulated _ <;> rfl)
    · rcases List.mem_append.1 hx with hx | hx
      · obtain ⟨b, hb, hsnap⟩ := hshown x hx i snap xs he
        exact ⟨b, hb.mono hprefix, hsnap⟩
      · rw [List.mem_singleton.1 hx] at he
        exact hnew i snap xs he

/-- Trading is not seen: in any order of the threads' moves, the books shown are those of a run of the
simulator alone, and every snapshot that is handed to the bots is one of a book shown in that run.
Nothing that the bots submit and no trade has an effect on what the bots are shown. -/
theorem trading_unseen (h : Runs (Step c) (start symbols shared q) ts s) :
    ∃ us u, Runs (SimulatorThread.Step c) (.start symbols (fun _ => shared) q) us u ∧
      (us.map fun x => x.2.1) = (ts.filterMap fun x => x.2.1.simulated) ∧
      (∀ i, (s.engine i).orderBook = u.market.book i) ∧
      ∀ x ∈ ts, ∀ i snap xs, x.2.1 = .snapshot i (some snap) xs →
        ∃ vs v, vs <+: us ∧
          Runs (SimulatorThread.Step c) (.start symbols (fun _ => shared) q) vs v ∧
          snap = .ofBook 5 (v.market.book i) := by
  obtain ⟨us, hus, hunseen, hshown⟩ := unseen_of_runs h
  refine ⟨us, _, hunseen.simulated, hus, fun _ => rfl, fun x hx i snap xs he => ?_⟩
  obtain ⟨b, ⟨vs, v, hvs, hv, rfl⟩, hsnap⟩ := hshown x hx i snap xs he
  exact ⟨vs, v, hvs, hv, hsnap⟩

end TradingFloor

/-- A turn of the simulator, with the two cells that the pool is to answer with. -/
def SimulatorThread.attempt (c : SimulatorSettings) (names : Fin n → List UInt8) (i : Fin n)
    (delta spread : Int64) (bid ask : OrderPtr) (s : SimulatorThread n) :
    Option (SimulatorEvent n × SimulatorThread n) :=
  let pool := (some (bid, default), some (ask, default))
  let prices := bidAsk (randomWalk (s.currentPrices (s.symbol i)) delta) spread
  if ¬ s.market.Spare names bid ask then none
  else if i.val = s.turn then (s.open c i pool).map (.opened i, ·)
  else if n ≤ s.turn ∧ i.val = s.turn % n ∧ c.mMinSpread ≤ spread ∧ spread ≤ c.mMaxSpread then
    (s.tick i delta spread pool).map (.ticked i prices.1 prices.2, ·)
  else none

theorem SimulatorThread.attempt_step {n : ℕ} {c : SimulatorSettings} {names : Fin n → List UInt8}
    {s t : SimulatorThread n} {e : SimulatorEvent n} {i : Fin n} {delta spread : Int64}
    {bid ask : OrderPtr}
    (hfree : ∀ bid ask : OrderCell, s.market.Spare names bid.1 ask.1 →
      s.market.sim.MayAnswer (some bid, some ask))
    (h : s.attempt c names i delta spread bid ask = some (e, t)) : Step c s e t := by
  simp only [attempt] at h
  split_ifs at h with hspare hopen htick
  · obtain ⟨u, hu, he⟩ := Option.map_eq_some_iff.1 h
    obtain ⟨rfl, rfl⟩ := Prod.mk.inj he
    exact .open hopen (hfree (bid, default) (ask, default) hspare) hu
  · obtain ⟨hn, hi, hd⟩ := htick
    obtain ⟨u, hu, he⟩ := Option.map_eq_some_iff.1 h
    obtain ⟨rfl, rfl⟩ := Prod.mk.inj he
    exact .tick hn hi hd (hfree (bid, default) (ask, default) hspare) hu

namespace TradingFloor

variable {n : ℕ} {c : SimulatorSettings} {names symbols : Fin n → List UInt8} {shared : Collaborators}
  {q : UInt32} {s t : TradingFloor n} {e : FloorEvent n}

inductive Call (n : ℕ)
  | simulator (i : Fin n) (delta spread : Int64) (bid ask : OrderPtr)
  | snapshot (i : Fin n) (draws : ℕ → Draws)
  | hand (i : Fin n) (p : OrderPtr)
  | sweep (i : Fin n)
  | process (i : Fin n)

/-- Steps can be computed. -/
def perform (c : SimulatorSettings) (names : Fin n → List UInt8) (s : TradingFloor n) :
    Call n → Option (FloorEvent n × TradingFloor n)
  | .simulator i delta spread bid ask =>
    (s.thread.attempt c names i delta spread bid ask).map fun r =>
      (.simulator r.1, { s with thread := r.2 })
  | .snapshot i draws =>
    if s.handing i then none else
    ((s.loops i).iterate (s.engine i).orderBook).map fun loop =>
      let r := brief loop.handed draws s.manager
      (.snapshot i loop.handed r.1, { s with
        manager := r.2
        loops := Function.update s.loops i loop
        handing := Function.update s.handing i true
        submitted := s.submitted ++ r.1 })
  | .hand i p =>
    if s.handing i ∧ p < orderPoolSize ∧ p ∉ s.botStorage i then
      (s.manager.popOrderForSymbol (s.engine i).symbol).map fun r =>
        (.hand i p r.1, { s.putStorage i ((s.storage i).submit p r.1) with manager := r.2 })
    else none
  | .sweep i =>
    if s.handing i ∧ (s.manager.popOrderForSymbol (s.engine i).symbol).isNone then
      some (.sweep i, { s.putStorage i (s.storage i).sweep with
        handing := Function.update s.handing i false })
    else none
  | .process i =>
    match (s.run i).matchCycleBody with
    | some (.inr t) => some (.process i, { s.putEngine i t with shared := t.shared })
    | _ => none

theorem perform_step {a : Call n}
    (hfree : ∀ bid ask : OrderCell, s.thread.market.Spare names bid.1 ask.1 →
      s.thread.market.sim.MayAnswer (some bid, some ask))
    (h : s.perform c names a = some (e, t)) : Step c s e t := by
  cases a with
  | simulator i delta spread bid ask =>
    obtain ⟨⟨e', u⟩, hu, he⟩ := Option.map_eq_some_iff.1 h
    obtain ⟨rfl, rfl⟩ := Prod.mk.inj he
    exact .simulator (SimulatorThread.attempt_step hfree hu)
  | snapshot i draws =>
    simp only [perform] at h
    split_ifs at h with hi
    obtain ⟨loop, hloop, he⟩ := Option.map_eq_some_iff.1 h
    obtain ⟨rfl, rfl⟩ := Prod.mk.inj he
    exact .snapshot draws (Bool.not_eq_true _ ▸ hi) hloop
  | hand i p =>
    simp only [perform] at h
    split_ifs at h with hi
    obtain ⟨⟨o, m⟩, hpop, he⟩ := Option.map_eq_some_iff.1 h
    obtain ⟨rfl, rfl⟩ := Prod.mk.inj he
    have hp : MarketSimulator.MayAcquire (fun p => p ∈ s.botStorage i) (some (p, default)) := hi.2
    exact .hand hi.1 hpop hp
  | sweep i =>
    simp only [perform] at h
    split_ifs at h with hi
    obtain ⟨rfl, rfl⟩ := Prod.mk.inj (Option.some.inj h)
    exact .sweep hi.1 (Option.isNone_iff_eq_none.1 hi.2)
  | process i =>
    simp only [perform] at h
    split at h
    · rename_i t ht
      obtain ⟨rfl, rfl⟩ := Prod.mk.inj (Option.some.inj h)
      exact .process ht
    · cases h

/-- The computed steps are steps, as the simulator's part of every run is in order. -/
theorem exists_run (hn : 2 * n + 2 ≤ orderPoolSize)
    (hsymbols : Function.Injective (Simulation.startSymbols symbols fun _ => shared)) (hq : q ≠ 0)
    (hmin : 4 ≤ c.mMinSpread.toInt) (cs : List (Call n))
    (ok : List (TradingFloor n × FloorEvent n × TradingFloor n) → TradingFloor n → Bool)
    (h : (Runs.play (perform c (Simulation.startSymbols symbols fun _ => shared))
      (start symbols shared q) cs).any (fun x => ok x.1 x.2) = true) :
    ∃ ts t, Runs (Step c) (start symbols shared q) ts t ∧ ok ts t = true := by
  refine Runs.exists_of_play_of (I := fun u => ∃ ts, Runs (Step c) (start symbols shared q) ts u)
    ⟨[], .nil⟩ (fun u a e v ⟨ts, hr⟩ he => ?_) h
  obtain ⟨us, -, hunseen, -⟩ := unseen_of_runs hr
  have hsane := SimulatorThread.sane_of_runs hn hsymbols hq hmin hunseen.simulated
  have hst : Step c u e v := perform_step (fun bid ask hspare => hsane.sound.mayAnswer hspare) he
  exact ⟨hst, _, hr.snoc hst⟩

def letters (i : Fin 10) : List UInt8 := [65 + UInt8.ofNat i.val]

/-- The simulator starts above the price that the market makers sell at. -/
def highOpening : SimulatorSettings where
  mDefaultInitialPrice := 10200

/-- The market opens. A bot buys the first symbol, the simulator moves on, the order is processed. The
tenth snapshot that a market maker sees makes it sell the last symbol, and a bot buys there. -/
def sampleCalls : List (Call 10) :=
  (List.finRange 10).map (fun i => .simulator i 0 5 (2 * i) (2 * i + 1)) ++
  [.snapshot 0 fun _ => { action := 0 }, .hand 0 0, .simulator 0 20 5 20 21, .sweep 0, .process 0] ++
  [1, 2, 3, 4, 5, 6, 7, 8].map (fun i => .snapshot i fun _ => {}) ++
  [.snapshot 9 fun _ => { action := 0 }, .hand 9 0, .hand 9 1, .sweep 9, .process 9, .process 9]

theorem exists_sample_run (shared : Collaborators)
    (ok : List (TradingFloor 10 × FloorEvent 10 × TradingFloor 10) → TradingFloor 10 → Bool)
    (h : (Runs.play (perform highOpening (Simulation.startSymbols letters fun _ => shared))
      (start letters shared 500) sampleCalls).any (fun x => ok x.1 x.2) = true) :
    ∃ ts t, Runs (Step highOpening) (start letters shared 500) ts t ∧ ok ts t = true := by
  have hsymbols : Function.Injective
      fun i => (OrderBook.new (letters i)).mSymbol.takeWhile (· ≠ 0) := by
    decide +kernel
  exact exists_run (by decide) hsymbols (by decide) (by decide) sampleCalls ok h

/-- A trade is made, and it is not seen. -/
theorem trading_unseen_sample : ∃ ts, ∃ s : TradingFloor 10, ∃ us, ∃ u : SimulatorThread 10,
    Runs (Step highOpening) (start letters {} 500) ts s ∧
    (s.engine 9).mEngine.engine.mMatchCount = 1 ∧
    Runs (SimulatorThread.Step highOpening) (.start letters (fun _ => {}) 500) us u ∧
    us.length = 11 ∧ ∀ i, (s.engine i).orderBook = u.market.book i := by
  obtain ⟨ts, s, h, hok⟩ := exists_sample_run {}
    (fun ts s => decide ((s.engine 9).mEngine.engine.mMatchCount = 1 ∧
      (ts.filterMap fun x => x.2.1.simulated).length = 11)) (by decide +kernel)
  obtain ⟨hmatched, hlength⟩ := of_decide_eq_true hok
  obtain ⟨us, u, hus, hevents, hbooks, -⟩ := trading_unseen h
  exact ⟨ts, s, us, u, h, hmatched, hus, by rw [← hlength, ← hevents, List.length_map], hbooks⟩

end TradingFloor

end Velox
