import Velox.EngineDrain
import Velox.ItchParser
import Velox.SimulatorQuotes

namespace Velox
set_option autoImplicit true

open OrderBook

/-- The engines of the replay tool with the objects they share, the orders in its pool, and the cells
that have been acquired, none of which is released before the tool exits. -/
structure ReplayTool (n : ℕ) where
  books : Fin n → OrderBook
  engines : Fin n → MatchingEngine
  shared : Collaborators
  orders : OrderHeap
  pending : List OrderPtr := []

namespace ReplayTool

variable {n : ℕ}

def start (symbols : Fin n → List UInt8) (shared : Collaborators) : ReplayTool n where
  books := fun i => OrderBook.new (symbols i)
  engines := fun i => MatchingEngine.new (symbols i)
  shared := shared
  orders := fun _ => default

def engine (s : ReplayTool n) (i : Fin n) : SymbolEngine :=
  ⟨s.books i, ⟨s.engines i, s.shared, s.orders⟩⟩

def put (s : ReplayTool n) (i : Fin n) (e : SymbolEngine) : ReplayTool n where
  books := Function.update s.books i e.mBook
  engines := Function.update s.engines i e.mEngine.engine
  shared := e.mEngine.shared
  orders := e.mEngine.orders
  pending := s.pending

/-- The first engine with the symbol of an order. -/
def target (s : ReplayTool n) (order : Order) : Option (Fin n) :=
  (List.finRange n).find? fun i => (s.engine i).symbol = order.symbol.cstr

/-- Copy an order into a cell and hand it to an engine. The cell is kept also when the engine has no
room for it. -/
def submit (s : ReplayTool n) (i : Fin n) (p : OrderPtr) (order : Order) : ReplayTool n :=
  let s := { s with orders := Function.update s.orders p order }
  { s.put i ((s.engine i).onMarketOrder (some p)).2 with pending := s.pending ++ [p] }

/-- The callback for added orders. When the pool is exhausted it dereferences a null pointer, and there
is no step. -/
inductive Step : ReplayTool n → Invocation → ReplayTool n → Prop
  | submit {s : ReplayTool n} {cb : CallbackId} {order : Order} {i : Fin n} {cell : OrderCell}
      (hi : s.target order = some i)
      (hp : MarketSimulator.MayAcquire (fun p => p ∈ s.pending) (some cell)) :
      Step s (.addOrder cb order) (s.submit i cell.1 order)
  | ignore {s : ReplayTool n} {cb : CallbackId} {order : Order} (hi : s.target order = none) :
      Step s (.addOrder cb order) s

def drainAll (s : ReplayTool n) (is : List (Fin n)) : Option (ReplayTool n) :=
  is.foldlM (fun s i => (s.engine i).runMatchCycle.map (s.put i)) s

/-- The tool replays a file: the only callback is the one for added orders. -/
def Replays (symbols : Fin n → List UInt8) (shared : Collaborators) (file : List UInt8)
    (t : ReplayTool n) : Prop :=
  ∃ feed ts s, replayFile file ⟨({} : FeedHandler).onAddOrder (some 0), []⟩ = some feed ∧
    Runs Step (start symbols shared) ts s ∧ (ts.map fun x => x.2.1) = feed.calls ∧
    s.drainAll (List.finRange n) = some t

def reference (s : ReplayTool n) (i : Fin n) : RefBook :=
  (⟨(s.engines i).mOrderBook, s.orders, []⟩ : Session).reference

/-- The symbols of the engines, cut off after seven characters. -/
def names (symbols : Fin n → List UInt8) (i : Fin n) : List UInt8 :=
  (SymbolEngine.new (symbols i) {}).symbol

end ReplayTool

namespace Frame

/-- The order that a frame adds: one of type `A` or `F` that is not too short. -/
def added (f : Frame) : Option Order :=
  if (f.msgType = 65 ∨ f.msgType = 70) ∧ 35 ≤ f.length then some (addedOrder f.bytes) else none

/-- The orders that frames add for a symbol, in their order. -/
def addedFor (symbol : List UInt8) (frames : List Frame) : List Order :=
  (frames.filterMap added).filter fun o => o.symbol.cstr = symbol

theorem added_fresh {f : Frame} {o : Order} (h : f.added = some o) : o.Fresh := by
  rw [added] at h
  split_ifs at h
  obtain rfl := Option.some.inj h
  exact ⟨rfl, rfl, rfl⟩

end Frame

/-- The callbacks of the replay tool: one for added orders. -/
structure FeedHandler.OnlyAdds (h : FeedHandler) : Prop where
  adds : h.mOnAddOrder = [some 0]
  cancels : h.mOnCancelOrder = []
  modifies : h.mOnModifyOrder = []
  trades : h.mOnTrade = []

namespace FeedRun

variable {minimum len : ℕ} {callbacks : FeedHandler → Callbacks} {announce : CallbackId → Invocation}
  {s : FeedRun}

theorem parse_onlyAdds (h : s.handler.OnlyAdds) :
    (s.parse minimum callbacks announce len).handler.OnlyAdds := by
  rw [parse]
  split_ifs
  · exact ⟨h.adds, h.cancels, h.modifies, h.trades⟩
  · exact ⟨h.adds, h.cancels, h.modifies, h.trades⟩

theorem parse_silent (h : callbacks s.handler = []) :
    (s.parse minimum callbacks announce len).calls = s.calls := by
  rw [parse]
  split_ifs
  · rfl
  · rw [h]
    exact List.append_nil _

/-- A frame is announced to the callback if it adds an order, whatever its type. -/
theorem message_added (h : s.handler.OnlyAdds) (f : Frame) : (s.message f).handler.OnlyAdds ∧
    (s.message f).calls = s.calls ++ f.added.toList.map (Invocation.addOrder 0) := by
  have hother : ¬ (f.msgType = 65 ∨ f.msgType = 70) → s.calls =
      s.calls ++ f.added.toList.map (Invocation.addOrder 0) := fun hadd => by
    rw [Frame.added, if_neg fun he => hadd he.1]
    exact (List.append_nil _).symm
  rw [message, dispatch]
  split_ifs with hadd hcancel hreplace hexecuted
  · refine ⟨parse_onlyAdds h, ?_⟩
    rw [parseAddOrder, parse, Frame.added, h.adds]
    by_cases hlong : 35 ≤ f.length
    · rw [if_neg (Nat.not_lt.2 hlong), if_pos ⟨hadd, hlong⟩]
      rfl
    · rw [if_pos (Nat.lt_of_not_le hlong), if_neg fun he => hlong he.2]
      exact (List.append_nil _).symm
  · exact ⟨parse_onlyAdds h, (parse_silent h.cancels).trans (hother hadd)⟩
  · exact ⟨parse_onlyAdds h, (parse_silent h.modifies).trans (hother hadd)⟩
  · exact ⟨parse_onlyAdds h, (parse_silent h.trades).trans (hother hadd)⟩
  · exact ⟨h, hother hadd⟩

theorem foldl_message_added (h : s.handler.OnlyAdds) (frames : List Frame) :
    (frames.foldl (fun s f => s.message f) s).calls =
      s.calls ++ (frames.filterMap Frame.added).map (Invocation.addOrder 0) := by
  induction frames generalizing s with
  | nil => exact (List.append_nil _).symm
  | cons f frames ih =>
    obtain ⟨hkept, hcalls⟩ := message_added h f
    rw [List.foldl_cons, ih hkept, hcalls, List.append_assoc, ← List.map_append, List.filterMap_cons]
    cases f.added with
    | none => rfl
    | some o => rfl

end FeedRun

namespace RefBook

def matchAll (b : RefBook) (log : List (OrderPtr × Order)) : RefBook :=
  log.foldl (fun b x => (b.match ⟨x.1, x.2.orderId, x.2.toLimit.price⟩ x.2.isBuy
    x.2.remainingQuantity.toNat).1) b

end RefBook

theorem NaiveEngine.book_cycle (e : NaiveEngine) : e.cycle.book = e.book.matchAll e.pending := by
  rw [NaiveEngine.cycle]
  generalize e.pending = log
  induction log generalizing e with
  | nil => rfl
  | cons x log ih => exact ih (e.process x)

theorem Stable.elsewhere {r t : EngineRun} {e : NaiveEngine} (h : Stable r e)
    (hengine : t.engine = r.engine) (hrisk : t.shared.riskManager = r.shared.riskManager)
    (hstocked : t.shared.Stocked) (horders : ∀ q ∈ e.given, t.orders q = r.orders q) :
    Stable t e := by
  have harrived : arrived t.orders e.processed = arrived r.orders e.processed :=
    arrived_congr fun q hq => by rw [horders q (List.mem_append_right _ hq)]
  refine ⟨h.tracks.elsewhere hengine hrisk horders, ?_, hstocked, fun x => ?_⟩
  · rw [hengine, harrived]
    exact h.crowded
  · rw [EngineRun.expected, harrived]
    exact h.few x

namespace ReplayTool

variable {n : ℕ} {s t : ReplayTool n} {i j : Fin n} {symbols : Fin n → List UInt8}
  {shared : Collaborators} {os : List Order} {o : Order} {p : OrderPtr}

theorem engine_put (s : ReplayTool n) (i : Fin n) (e : SymbolEngine) : (s.put i e).engine i = e := by
  simp only [engine, put, Function.update_self]

theorem engine_put_other (h : j ≠ i) (s : ReplayTool n) (e : SymbolEngine) :
    (s.put i e).engine j =
      ⟨s.books j, ⟨s.engines j, e.mEngine.shared, e.mEngine.orders⟩⟩ := by
  simp only [engine, put, Function.update_of_ne h]

def own (symbols : Fin n → List UInt8) (i : Fin n) (log : List (OrderPtr × Order)) :
    List (OrderPtr × Order) :=
  log.filter fun x => x.2.symbol.cstr = names symbols i

theorem own_snoc (i : Fin n) (log : List (OrderPtr × Order)) (p : OrderPtr) (o : Order) :
    own symbols i (log ++ [(p, o)]) =
      if o.symbol.cstr = names symbols i then own symbols i log ++ [(p, o)] else own symbols i log := by
  rw [own, List.filter_append, List.filter_singleton]
  by_cases hi : o.symbol.cstr = names symbols i
  · rw [if_pos hi, decide_eq_true hi]
    rfl
  · rw [if_neg hi, decide_eq_false hi]
    exact List.append_nil _

/-- What the tool has done with added orders before the engines run: those of a known symbol are in
cells of their own and wait for the engine of the symbol, and nothing has been matched. -/
structure Fed (symbols : Fin n → List UInt8) (shared : Collaborators) (os : List Order)
    (log : List (OrderPtr × Order)) (s : ReplayTool n) : Prop where
  shared : s.shared = shared
  books : ∀ i, s.books i = OrderBook.new (symbols i)
  traded : ∀ i, (s.engines i).mOrderBook = OrderBook.new (symbols i)
  known : log.map Prod.snd = os.filter fun o => ∃ i, o.symbol.cstr = names symbols i
  cells : log.map Prod.fst = s.pending
  nodup : s.pending.Nodup
  tracks : ∀ i, Tracks (s.engine i).mEngine { pending := own symbols i log }

theorem fed_start (symbols : Fin n → List UInt8) (shared : Collaborators) :
    Fed symbols shared [] [] (start symbols shared) where
  shared := rfl
  books _ := rfl
  traded _ := rfl
  known := rfl
  cells := rfl
  nodup := List.nodup_nil
  tracks i := (SymbolSession.sound_start (symbols i) shared).tracks

namespace Fed

variable {log : List (OrderPtr × Order)}

theorem orders (h : Fed symbols shared os log s) (i : Fin n) : (own symbols i log).map Prod.snd =
    os.filter fun o => o.symbol.cstr = names symbols i := by
  have hown : (own symbols i log).map Prod.snd =
      (log.map Prod.snd).filter fun o => o.symbol.cstr = names symbols i := by
    rw [List.filter_map]
    rfl
  rw [hown, h.known, List.filter_filter]
  refine List.filter_congr fun o _ => ?_
  by_cases hi : o.symbol.cstr = names symbols i
  · rw [decide_eq_true hi, Bool.true_and, decide_eq_true ⟨i, hi⟩]
  · rw [decide_eq_false hi, Bool.false_and]

theorem symbol_eq (h : Fed symbols shared os log s) (i : Fin n) :
    (s.engine i).symbol = names symbols i := by
  rw [SymbolEngine.symbol, engine, h.books]
  rfl

theorem target_spec (h : Fed symbols shared os log s) (hi : s.target o = some i) :
    o.symbol.cstr = names symbols i := by
  have hfound := List.find?_some hi
  rw [← h.symbol_eq]
  exact (of_decide_eq_true hfound).symm

theorem target_none (h : Fed symbols shared os log s) (hi : s.target o = none) (i : Fin n) :
    o.symbol.cstr ≠ names symbols i := by
  have hmissing := List.find?_eq_none.1 hi i (List.mem_finRange i)
  rw [← h.symbol_eq]
  exact fun he => hmissing (decide_eq_true he.symm)

theorem ignore (h : Fed symbols shared os log s) (hi : ∀ i, o.symbol.cstr ≠ names symbols i) :
    Fed symbols shared (os ++ [o]) log s :=
  { h with
    known := by
      rw [h.known, List.filter_append, List.filter_singleton,
        decide_eq_false fun ⟨i, he⟩ => hi i he, Bool.cond_false, List.append_nil] }

theorem waiting (h : Fed symbols shared os log s) {q : OrderPtr}
    (hq : q ∈ (own symbols i log).map Prod.fst) : q ∈ s.pending := by
  obtain ⟨x, hx, rfl⟩ := List.mem_map.1 hq
  rw [← h.cells]
  exact List.mem_map_of_mem (List.mem_of_mem_filter hx)

/-- What is said of an engine after a submission, from what is said of the engine that got the order
and of the others. -/
theorem engine_submit {P : Fin n → SymbolEngine → Prop}
    (hself : P i ((SymbolEngine.onMarketOrder (some p)
      ⟨s.books i, ⟨s.engines i, s.shared, Function.update s.orders p o⟩⟩).2))
    (hother : ∀ j, j ≠ i → P j ⟨s.books j, ⟨s.engines j, s.shared, Function.update s.orders p o⟩⟩)
    (j : Fin n) : P j ((s.submit i p o).engine j) := by
  let u : ReplayTool n := { s with orders := Function.update s.orders p o }
  by_cases hj : j = i
  · subst hj
    rw [show (s.submit j p o).engine j = ((u.engine j).onMarketOrder (some p)).2 from engine_put u j _]
    exact hself
  · rw [show (s.submit i p o).engine j = ⟨s.books j, ⟨s.engines j, s.shared,
      Function.update s.orders p o⟩⟩ from engine_put_other hj u _]
    exact hother j hj

theorem submit (h : Fed symbols shared os log s) (hnames : Function.Injective (names symbols))
    (hi : o.symbol.cstr = names symbols i) (hp : p ∉ s.pending) (ho : o.Fresh)
    (hrisk : shared.checkRisk o = true)
    (hids : ∀ o' ∈ os, o'.symbol.cstr = names symbols i → o'.orderId ≠ o.orderId)
    (hroom : (os.filter fun o => o.symbol.cstr = names symbols i).length < 65536) :
    Fed symbols shared (os ++ [o]) (log ++ [(p, o)]) (s.submit i p o) where
  shared := h.shared
  books := engine_submit (P := fun j e => e.mBook = OrderBook.new (symbols j)) (h.books i)
    fun j _ => h.books j
  traded := engine_submit (P := fun j e => e.mEngine.engine.mOrderBook = OrderBook.new (symbols j))
    (h.traded i) fun j _ => h.traded j
  known := by
    rw [List.map_append, List.filter_append, List.filter_singleton, ← h.known,
      decide_eq_true ⟨i, hi⟩]
    rfl
  cells := by
    rw [List.map_append, h.cells]
    rfl
  nodup := List.nodup_append'.2 ⟨h.nodup, List.nodup_singleton p, fun q hq hqp =>
    hp (List.mem_singleton.1 hqp ▸ hq)⟩
  tracks := by
    have hwaits : ∀ x ∈ own symbols i log, x.2.orderId ≠ o.orderId := fun x hx => by
      have hmem := List.mem_map_of_mem (f := Prod.snd) hx
      rw [h.orders, List.mem_filter] at hmem
      exact hids x.2 hmem.1 (of_decide_eq_true hmem.2)
    have hsubmit := (h.tracks i).submit (p := p) (o := o) List.not_mem_nil
      (fun hm => hp (h.waiting hm)) (fun q hq => by cases hq) hwaits ho
      (by rw [show (s.engine i).mEngine.shared = shared from h.shared]; exact hrisk)
    rw [NaiveEngine.submit, if_pos (by rwa [← List.length_map (f := Prod.snd), h.orders])] at hsubmit
    refine engine_submit (P := fun j e => Tracks e.mEngine
      { pending := own symbols j (log ++ [(p, o)]) }) ?_ fun j hj => ?_
    · rw [own_snoc, if_pos hi]
      exact hsubmit
    · rw [own_snoc, if_neg fun he => hj (hnames (he.symm.trans hi))]
      refine (h.tracks j).elsewhere rfl rfl fun q hq => Function.update_of_ne (fun he => ?_) _ _
      rw [NaiveEngine.given, List.append_nil] at hq
      exact hp (he ▸ h.waiting hq)

end Fed

/-- What is asked of the orders of a file: those of one symbol have different ids, and each that is for
an engine passes the risk check; fewer than 65536 are for one engine, and fewer than 128 of these name
the same price. -/
structure Playable (symbols : Fin n → List UInt8) (shared : Collaborators) (os : List Order) :
    Prop where
  passes : ∀ o ∈ os, ∀ i, o.symbol.cstr = names symbols i → shared.checkRisk o = true
  ids : os.Pairwise fun o o' => o.symbol.cstr = o'.symbol.cstr → o.orderId ≠ o'.orderId
  room : ∀ i, (os.filter fun o => o.symbol.cstr = names symbols i).length < 65536
  few : ∀ i x, (os.filter fun o => o.symbol.cstr = names symbols i).countP
    (fun o => o.toLimit.price = x) < maxOrders

theorem Playable.init (h : Playable symbols shared (os ++ [o])) : Playable symbols shared os where
  passes o' ho := h.passes o' (List.mem_append_left _ ho)
  ids := (List.pairwise_append.1 h.ids).1
  room i := by
    refine (List.Sublist.length_le ?_).trans_lt (h.room i)
    exact (List.sublist_append_left os [o]).filter _
  few i x := by
    refine (List.Sublist.countP_le ?_).trans_lt (h.few i x)
    exact (List.sublist_append_left os [o]).filter _

theorem Playable.last (h : Playable symbols shared (os ++ [o])) : ∀ o' ∈ os,
    o'.symbol.cstr = o.symbol.cstr → o'.orderId ≠ o.orderId := fun o' ho =>
  (List.pairwise_append.1 h.ids).2.2 o' ho o (List.mem_singleton_self o)

theorem fed_of_runs (hnames : Function.Injective (names symbols))
    {ts : List (ReplayTool n × Invocation × ReplayTool n)} (h : Runs Step (start symbols shared) ts s)
    (hcalls : (ts.map fun x => x.2.1) = os.map (Invocation.addOrder 0))
    (hfresh : ∀ o ∈ os, o.Fresh) (hos : Playable symbols shared os) :
    ∃ log, Fed symbols shared os log s := by
  induction h generalizing os with
  | nil =>
    obtain rfl := List.map_eq_nil_iff.1 hcalls.symm
    exact ⟨[], fed_start symbols shared⟩
  | @snoc ts u e t h hs ih =>
    rw [List.map_append, List.map_cons, List.map_nil, eq_comm, List.map_eq_append_iff] at hcalls
    obtain ⟨os', os'', rfl, hinit, hlast⟩ := hcalls
    obtain ⟨o, rfl, rfl⟩ := List.map_eq_singleton_iff.1 hlast
    obtain ⟨log, hfed⟩ := ih hinit.symm (fun o' ho => hfresh o' (List.mem_append_left _ ho)) hos.init
    have hmem : o ∈ os' ++ [o] := List.mem_append_right _ (List.mem_singleton_self o)
    cases hs with
    | @submit _ _ i cell hi hp =>
      have hsymbol := hfed.target_spec hi
      exact ⟨log ++ [(cell.1, o)], hfed.submit hnames hsymbol hp.2 (hfresh o hmem)
        (hos.passes o hmem i hsymbol) (fun o' ho he => hos.last o' ho (he.trans hsymbol.symm))
        (hos.init.room i)⟩
    | ignore hi => exact ⟨log, hfed.ignore (hfed.target_none hi)⟩

theorem exists_fed (hnames : Function.Injective (names symbols)) (hfresh : ∀ o ∈ os, o.Fresh)
    (hos : Playable symbols shared os)
    (hpool : (os.filter fun o => ∃ i, o.symbol.cstr = names symbols i).length ≤ orderPoolSize) :
    ∃ ts s, Runs Step (start symbols shared) ts s ∧
      (ts.map fun x => x.2.1) = os.map (Invocation.addOrder 0) := by
  induction os using List.reverseRecOn with
  | nil => exact ⟨[], _, .nil, rfl⟩
  | append_singleton os o ih =>
    rw [List.filter_append, List.length_append] at hpool
    have hfresh' : ∀ o' ∈ os, o'.Fresh := fun o' ho => hfresh o' (List.mem_append_left _ ho)
    obtain ⟨ts, s, h, hcalls⟩ := ih hfresh' hos.init (by omega)
    obtain ⟨log, hfed⟩ := fed_of_runs hnames h hcalls hfresh' hos.init
    have hlabels : ∀ {t : ReplayTool n},
        ((ts ++ [(s, Invocation.addOrder 0 o, t)]).map fun x => x.2.1) =
        (os ++ [o]).map (Invocation.addOrder 0) := fun {t} => by
      rw [List.map_append, List.map_append, hcalls]
      rfl
    cases hi : s.target o with
    | none => exact ⟨_, s, h.snoc (.ignore hi), hlabels⟩
    | some i =>
      have hknown : ∃ i, o.symbol.cstr = names symbols i := ⟨i, hfed.target_spec hi⟩
      have hlength : s.pending.length < orderPoolSize := by
        rw [← hfed.cells, List.length_map, ← List.length_map (f := Prod.snd), hfed.known]
        rw [List.filter_singleton, decide_eq_true hknown] at hpool
        exact hpool
      obtain ⟨p, hp, hfree⟩ := Simulation.exists_free hlength
      have hanswer : MarketSimulator.MayAcquire (fun x => x ∈ s.pending) (some (p, default)) :=
        ⟨hp, hfree⟩
      exact ⟨_, _, h.snoc (.submit hi hanswer), hlabels⟩

/-- The engines are in the states of naive ones, no two of which were given the same order. -/
structure Parted (es : Fin n → NaiveEngine) (s : ReplayTool n) : Prop where
  stable : ∀ i, Stable (s.engine i).mEngine (es i)
  apart : ∀ i j, i ≠ j → ∀ q ∈ (es i).given, q ∉ (es j).given

theorem Fed.parted {log : List (OrderPtr × Order)} (h : Fed symbols shared os log s)
    (hnames : Function.Injective (names symbols)) (hos : Playable symbols shared os)
    (hstocked : shared.Stocked) :
    Parted (fun i => { pending := own symbols i log }) s where
  stable i := by
    refine ⟨h.tracks i, ?_, ?_, fun x => ?_⟩
    · rw [show (s.engine i).mEngine.engine.mOrderBook = OrderBook.new (symbols i) from h.traded i]
      exact crowded_new _ _
    · rw [show (s.engine i).mEngine.shared = shared from h.shared]
      exact hstocked
    · have hcount : (own symbols i log).countP (fun y => y.2.toLimit.price = x) =
          (os.filter fun o => o.symbol.cstr = names symbols i).countP
            fun o => o.toLimit.price = x := by
        rw [← h.orders, List.countP_map]
        rfl
      have hfew := hos.few i x
      rw [← hcount] at hfew
      rw [EngineRun.expected, show arrived _ [] x = 0 from rfl, Nat.zero_add]
      exact hfew
  apart i j hij q hi hj := by
    rw [NaiveEngine.given, List.append_nil] at hi hj
    obtain ⟨x, hx, rfl⟩ := List.mem_map.1 hi
    obtain ⟨y, hy, hxy⟩ := List.mem_map.1 hj
    obtain ⟨hxlog, hxi⟩ := List.mem_filter.1 hx
    obtain ⟨hylog, hyj⟩ := List.mem_filter.1 hy
    have hnodup : (log.map Prod.fst).Nodup := h.cells ▸ h.nodup
    obtain rfl := List.inj_on_of_nodup_map hnodup hylog hxlog hxy
    exact hij (hnames ((of_decide_eq_true hxi).symm.trans (of_decide_eq_true hyj)))

theorem mem_given_cycle {e : NaiveEngine} (hempty : e.cycle.pending = []) {q : OrderPtr}
    (hq : q ∈ e.cycle.given) : q ∈ e.given := by
  rw [NaiveEngine.given, hempty, List.map_nil, List.nil_append] at hq
  rcases SymbolSession.mem_cycle hq with hq | hq
  · exact List.mem_append_right _ hq
  · exact List.mem_append_left _ hq

theorem Parted.drain {es : Fin n → NaiveEngine} (h : Parted es s) (i : Fin n) :
    ∃ e, (s.engine i).runMatchCycle = some e ∧
      Parted (Function.update es i (es i).cycle) (s.put i e) := by
  obtain ⟨r, hr, hstable, hempty, hframe⟩ := (h.stable i).drain
  refine ⟨{ s.engine i with mEngine := r }, by rw [SymbolEngine.runMatchCycle, hr]; rfl,
    fun j => ?_, fun j k hjk q hq => ?_⟩
  · by_cases hj : j = i
    · subst hj
      rw [engine_put, Function.update_self]
      exact hstable
    · rw [engine_put_other hj, Function.update_of_ne hj]
      exact (h.stable j).elsewhere rfl hframe.risk hstable.stocked fun q hq =>
        hframe.orders q (h.apart j i hj q hq)
  · have hgiven : ∀ l, q ∈ (Function.update es i (es i).cycle l).given → q ∈ (es l).given := by
      intro l hl
      by_cases hli : l = i
      · subst hli
        rw [Function.update_self] at hl
        exact mem_given_cycle hempty hl
      · rwa [Function.update_of_ne hli] at hl
    exact fun hq' => h.apart j k hjk q (hgiven j hq) (hgiven k hq')

theorem Parted.drainAll {es : Fin n → NaiveEngine} (h : Parted es s) {is : List (Fin n)}
    (his : is.Nodup) : ∃ t, s.drainAll is = some t ∧
      Parted (fun i => if i ∈ is then (es i).cycle else es i) t := by
  induction is generalizing es s with
  | nil =>
    refine ⟨s, rfl, ?_⟩
    simp only [List.not_mem_nil, if_false]
    exact h
  | cons i is ih =>
    obtain ⟨hi, his⟩ := List.nodup_cons.1 his
    obtain ⟨e, he, hput⟩ := h.drain i
    obtain ⟨t, ht, ht'⟩ := ih hput his
    refine ⟨t, ?_, ?_⟩
    · rw [ReplayTool.drainAll, List.foldlM_cons, he]
      exact ht
    · refine cast (congrArg (Parted · t) (funext fun j => ?_)) ht'
      by_cases hj : j = i
      · subst hj
        rw [if_neg hi, if_pos List.mem_cons_self, Function.update_self]
      · rw [Function.update_of_ne hj, if_congr (List.mem_cons.trans (or_iff_right hj)).symm rfl rfl]

theorem replayFile_calls {frames : List Frame} (h : Placed InChunk 0 frames) : ∃ feed,
    replayFile (frames.flatMap Frame.bytes) ⟨({} : FeedHandler).onAddOrder (some 0), []⟩ = some feed ∧
      feed.calls = (frames.filterMap Frame.added).map (Invocation.addOrder 0) := by
  refine ⟨_, (replayFile_eq _ _).trans (readOn_frames h rfl _ _), ?_⟩
  exact FeedRun.foldl_message_added ⟨rfl, rfl, rfl, rfl⟩ frames

/-- From the file to the books: when no frame is cut by a chunk, the tool replays the file, and each
engine ends with the book of a naive one that was given the orders added for its symbol, in the order
of the file. Other frames have no effect, nor have those that are too short. -/
theorem replay_refines {frames : List Frame} (hchunks : Placed InChunk 0 frames)
    (hnames : Function.Injective (names symbols)) (hstocked : shared.Stocked)
    (hos : Playable symbols shared (frames.filterMap Frame.added))
    (hpool : ((frames.filterMap Frame.added).filter fun o =>
      ∃ i, o.symbol.cstr = names symbols i).length ≤ orderPoolSize) :
    (∃ t, Replays symbols shared (frames.flatMap Frame.bytes) t) ∧
    ∀ t, Replays symbols shared (frames.flatMap Frame.bytes) t → ∀ i,
      ∃ log : List (OrderPtr × Order), (log.map Prod.fst).Nodup ∧
        log.map Prod.snd = Frame.addedFor (names symbols i) frames ∧
        t.reference i = ({} : RefBook).matchAll log := by
  have hfresh : ∀ o ∈ frames.filterMap Frame.added, o.Fresh := fun o ho => by
    obtain ⟨f, -, hf⟩ := List.mem_filterMap.1 ho
    exact Frame.added_fresh hf
  obtain ⟨feed, hfile, hadded⟩ := replayFile_calls hchunks
  refine ⟨?_, fun t ⟨feed', ts, s, hread, h, hcalls, hdrain⟩ i => ?_⟩
  · obtain ⟨ts, s, h, hcalls⟩ := exists_fed hnames hfresh hos hpool
    obtain ⟨log, hfed⟩ := fed_of_runs hnames h hcalls hfresh hos
    obtain ⟨t, ht, -⟩ := (hfed.parted hnames hos hstocked).drainAll (List.nodup_finRange n)
    exact ⟨t, feed, ts, s, hfile, h, hcalls.trans hadded.symm, ht⟩
  · obtain rfl : feed = feed' := Option.some.inj (hfile.symm.trans hread)
    obtain ⟨log, hfed⟩ := fed_of_runs hnames h (hcalls.trans hadded) hfresh hos
    obtain ⟨u, hu, hparted⟩ := (hfed.parted hnames hos hstocked).drainAll (List.nodup_finRange n)
    obtain rfl : u = t := Option.some.inj (hu.symm.trans hdrain)
    have hnodup : (log.map Prod.fst).Nodup := hfed.cells ▸ hfed.nodup
    refine ⟨own symbols i log, hnodup.sublist (List.filter_sublist.map _), hfed.orders i, ?_⟩
    have hstable := hparted.stable i
    rw [if_pos (List.mem_finRange i)] at hstable
    rw [← NaiveEngine.book_cycle { pending := own symbols i log }, ← hstable.tracks.refers]
    rfl

def sampleAdd (id : UInt64) (side : OrderSide) (symbol : UInt8) (quantity : UInt32)
    (h : symbol ≠ 0 ∧ symbol ≠ 32) : ItchMessage :=
  .add {
    orderId := id
    symbol := [symbol]
    side
    price := 100
    quantity
    short := Nat.le_add_left 1 5
    nonzero := fun b hb => List.mem_singleton.1 hb ▸ h.1
    trimmed := fun he => h.2 (Option.some.inj he)
    priced := by decide }

/-- A message of a type that nothing is registered for. -/
def sampleOther (msgType : UInt8) : Frame where
  bytes := [0, 35, msgType] ++ List.replicate 32 0
  long := by simp
  headed := rfl

/-- Orders of the engines' symbols and of an unknown one; between them a message of each other type,
and one that is too short for an order. -/
def sampleFrames : List Frame :=
  [(sampleAdd 1 .BUY 65 5 (by decide)).frame, (sampleAdd 2 .BUY 90 5 (by decide)).frame,
    (ItchMessage.cancel 1).frame, sampleOther 85, sampleOther 69, ⟨[0, 3, 65], le_rfl, rfl⟩,
    (sampleAdd 3 .SELL 65 3 (by decide)).frame, (sampleAdd 4 .SELL 66 5 (by decide)).frame]

/-- The objects that the tool sets up, with a gateway that has one worker. -/
def sampleShared : Collaborators where
  riskManager := some {}
  gateway := some ({ acquires := some : ExecutionGateway }.addWorker)
  positionManager := some {}

theorem replay_refines_sample : ∃ t : ReplayTool 2, ∃ log log',
    Replays ![[65], [66]] sampleShared (sampleFrames.flatMap Frame.bytes) t ∧
    (log.map fun x => x.2.orderId) = [1, 3] ∧ t.reference 0 = ({} : RefBook).matchAll log ∧
    (log'.map fun x => x.2.orderId) = [4] ∧ t.reference 1 = ({} : RefBook).matchAll log' := by
  have hfew : (sampleFrames.filterMap Frame.added).length < maxOrders := by decide +kernel
  have hos : Playable ![[65], [66]] sampleShared (sampleFrames.filterMap Frame.added) :=
    ⟨by decide +kernel, by decide +kernel,
      fun _ => (List.length_filter_le _ _).trans_lt (hfew.trans (by decide)), fun _ _ =>
      List.countP_le_length.trans_lt ((List.length_filter_le _ _).trans_lt hfew)⟩
  obtain ⟨⟨t, ht⟩, hall⟩ := replay_refines (show Placed InChunk 0 sampleFrames by decide +kernel)
    (show Function.Injective (names ![[65], [66]]) by decide +kernel)
    (fun g hg n => by obtain rfl := Option.some.inj hg; rfl) hos (by decide +kernel)
  obtain ⟨log, -, hlog, href⟩ := hall t ht 0
  obtain ⟨log', -, hlog', href'⟩ := hall t ht 1
  have hids := congrArg (List.map Order.orderId) hlog
  have hids' := congrArg (List.map Order.orderId) hlog'
  rw [List.map_map] at hids hids'
  exact ⟨t, log, log', ht, hids.trans (by decide +kernel), href, hids'.trans (by decide +kernel), href'⟩

end ReplayTool

end Velox
