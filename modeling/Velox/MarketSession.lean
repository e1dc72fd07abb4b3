import Velox.SimulatorTicks

namespace Velox
set_option autoImplicit true

/-- The price that is kept for an engine after a tick. -/
def midPrice (bid ask : Int64) : Int64 := (bid + ask) / 2

/-- The main program's part in a trading session: the simulator's thread, the prices that its callback
keeps, and what the state file holds, if there is one. The file can be opened for writing. -/
structure MarketSession (n : ℕ) where
  thread : SimulatorThread n
  lastUpdatedPrices : SymbolPriceMap
  stateFile : Option (List UInt8)

/-- A symbol that has no price yet gets its initial one, or zero. -/
def addInitial (initialPrices : SymbolPriceMap) (prices : SymbolPriceMap) (symbol : List UInt8) :
    SymbolPriceMap :=
  if prices symbol = none then
    Function.update prices symbol (some ((initialPrices symbol).getD 0))
  else prices

inductive SessionEvent (n : ℕ)
  | simulator (e : SimulatorEvent n)
  | close

namespace MarketSession

variable {n : ℕ}

/-- Both the simulator and the callback start with the prices read from the file. -/
def start (symbols : Fin n → List UInt8) (shared : Fin n → Collaborators) (quantity : UInt32)
    (initialPrices : SymbolPriceMap) (file : Option (List UInt8)) : MarketSession n where
  thread := .start symbols shared quantity
  lastUpdatedPrices := initialPrices
  stateFile := file

/-- Every tick ends with the callback, which writes the file anew; the main thread writes it once more
when the market closes, and the simulator may still tick after that. -/
inductive Step (c : SimulatorSettings) (symbols : List (List UInt8)) :
    MarketSession n → SessionEvent n → MarketSession n → Prop
  | opened {s : MarketSession n} {t : SimulatorThread n} {i : Fin n}
      (h : SimulatorThread.Step c s.thread (.opened i) t) :
      Step c symbols s (.simulator (.opened i)) { s with thread := t }
  | ticked {s : MarketSession n} {t : SimulatorThread n} {i : Fin n} {bid ask : Int64}
      {prices : SymbolPriceMap} {entries : List (List UInt8 × Int64)}
      (h : SimulatorThread.Step c s.thread (.ticked i bid ask) t)
      (hp : prices = Function.update s.lastUpdatedPrices (s.thread.symbol i)
        (some (midPrice bid ask)))
      (ho : IterationOrder prices entries) :
      Step c symbols s (.simulator (.ticked i bid ask))
        ⟨t, prices, some (writeMarketState entries)⟩
  | close {s : MarketSession n} {prices : SymbolPriceMap} {entries : List (List UInt8 × Int64)}
      (hp : prices = symbols.foldl (addInitial c.mInitialPrices) s.lastUpdatedPrices)
      (ho : IterationOrder prices entries) :
      Step c symbols s .close ⟨s.thread, prices, some (writeMarketState entries)⟩

end MarketSession

section Recovery

variable {prices defaults : SymbolPriceMap} {entries : List (List UInt8 × Int64)}
  {symbols : List (List UInt8)} {symbol : List UInt8} {price : Int64} {file : Option (List UInt8)}

theorem foldl_addDefault_some (h : prices symbol = some price) (symbols : List (List UInt8)) :
    symbols.foldl (addDefault defaults) prices symbol = some price := by
  induction symbols generalizing prices with
  | nil => exact h
  | cons k symbols ih =>
    refine ih ?_
    rw [addDefault]
    split
    · rename_i hnone
      cases defaults k with
      | none => exact h
      | some x =>
        have hk : symbol ≠ k := fun he => by
          rw [he, hnone] at h
          cases h
        exact (Function.update_of_ne hk _ _).trans h
    · exact h

theorem readMarketState_recovers (h : IterationOrder prices entries)
    (hs : ∀ e ∈ entries, Storable e.1) (symbols : List (List UInt8)) (defaults : SymbolPriceMap) :
    ∃ next, readMarketState (some (writeMarketState entries)) symbols defaults = some next ∧
      ∀ symbol price, prices symbol = some price → next symbol = some price := by
  have hprices : ∀ e ∈ entries, prices e.1 = some e.2 := fun e he => (h.mem_iff _ _).1 he
  refine ⟨_, by rw [readMarketState, run_written hs defaults
    (Nat.lt_succ_of_le (length_writeMarketState entries))]; rfl, fun symbol price hsymbol => ?_⟩
  refine foldl_addDefault_some ?_ symbols
  dsimp only
  rw [foldl_enter hprices,
    if_pos (List.mem_map_of_mem (f := Prod.fst) ((h.mem_iff symbol price).2 hsymbol)), hsymbol]

/-- All symbols with a price are storable. -/
def StorableKeys (prices : SymbolPriceMap) : Prop := ∀ symbol, prices symbol ≠ none → Storable symbol

theorem StorableKeys.update (h : StorableKeys prices) (hs : Storable symbol) (price : Option Int64) :
    StorableKeys (Function.update prices symbol price) := by
  intro k hk
  by_cases he : k = symbol
  · rwa [he]
  · rw [Function.update_of_ne he] at hk
    exact h k hk

theorem StorableKeys.foldl {add : SymbolPriceMap → List UInt8 → SymbolPriceMap}
    (hadd : ∀ prices, ∀ symbol ∈ symbols, StorableKeys prices → StorableKeys (add prices symbol))
    (h : StorableKeys prices) : StorableKeys (symbols.foldl add prices) := by
  induction symbols generalizing prices with
  | nil => exact h
  | cons symbol symbols ih =>
    exact ih (fun p k hk => hadd p k (List.mem_cons_of_mem symbol hk))
      (hadd prices symbol List.mem_cons_self h)

theorem StorableKeys.addDefault (hd : StorableKeys defaults) (h : StorableKeys prices)
    (symbol : List UInt8) : StorableKeys (addDefault defaults prices symbol) := by
  rw [Velox.addDefault]
  split
  · cases hs : defaults symbol with
    | none => exact h
    | some price => exact h.update (hd symbol (by rw [hs]; exact Option.some_ne_none price)) _
  · exact h

theorem StorableKeys.readLine {line : List UInt8} (hline : 10 ∉ line) (h : StorableKeys prices) :
    StorableKeys (readLine line prices) := by
  rw [Velox.readLine]
  split_ifs
  · exact h
  · cases hc : cut 61 line with
    | none => exact h
    | some parts =>
      obtain ⟨symbol, value⟩ := parts
      obtain ⟨rfl, hequals⟩ := Cut.eq_of_cut hc
      dsimp only
      split_ifs with hempty
      · exact h
      · cases Decimal.toSigned 64 value with
        | none => exact h
        | some parsed =>
          exact h.update ⟨hempty, hequals, fun hm => hline (List.mem_append_left _ hm)⟩ _

theorem not_mem_getline {input line rest : List UInt8} (h : getline input = some (line, rest)) :
    10 ∉ line := by
  rw [getline] at h
  split_ifs at h
  cases hc : cut 10 input with
  | none =>
    rw [hc] at h
    cases h
    exact Cut.not_mem_of_cut hc
  | some parts =>
    rw [hc] at h
    cases h
    exact (Cut.eq_of_cut hc).2

theorem StorableKeys.read (hd : StorableKeys defaults)
    (h : readMarketState file symbols defaults = some prices) : StorableKeys prices := by
  cases file with
  | none =>
    obtain rfl := Option.some.inj h
    exact hd
  | some bytes =>
    obtain ⟨s, hrun, rfl⟩ := Option.map_eq_some_iff.1 h
    refine StorableKeys.foldl (fun p k _ hp => hd.addDefault hp k) ?_
    refine Loop.run_keeps (I := fun s : SymbolPriceMap × List UInt8 => StorableKeys s.1)
      (fun s r hs hr => ?_) hd hrun
    rw [readBody] at hr
    cases hg : getline s.2 with
    | none =>
      rw [hg] at hr
      cases hr
      exact hs
    | some parts =>
      rw [hg] at hr
      cases hr
      exact hs.readLine (not_mem_getline hg)

end Recovery

namespace MarketSession

variable {n : ℕ} {c : SimulatorSettings} {s t : MarketSession n} {e : SessionEvent n}
  {names : Fin n → List UInt8} {q : UInt32} {symbols : List (List UInt8)} {i : Fin n}

/-- What the callback has kept, and the file after the first tick. -/
structure Recorded (c : SimulatorSettings) (names : Fin n → List UInt8) (q : UInt32)
    (s : MarketSession n) : Prop where
  sane : s.thread.Sane c names q
  keys : StorableKeys s.lastUpdatedPrices
  ticked : ∀ i bid ask, s.thread.shown i = some (bid, ask) →
    s.lastUpdatedPrices (names i) = some (midPrice bid ask)
  unticked : ∀ i price, s.thread.shown i = none → c.mInitialPrices (names i) = some price →
    s.lastUpdatedPrices (names i) = some price

def Written (s : MarketSession n) : Prop :=
  ∃ entries, IterationOrder s.lastUpdatedPrices entries ∧
    s.stateFile = some (writeMarketState entries)

theorem addInitial_some {initialPrices prices : SymbolPriceMap} {symbol : List UInt8} {price : Int64}
    (h : prices symbol = some price) (symbols : List (List UInt8)) :
    symbols.foldl (addInitial initialPrices) prices symbol = some price := by
  induction symbols generalizing prices with
  | nil => exact h
  | cons k symbols ih =>
    refine ih ?_
    rw [addInitial]
    split
    · rename_i hnone
      have hk : symbol ≠ k := fun he => by
        rw [he, hnone] at h
        cases h
      exact (Function.update_of_ne hk _ _).trans h
    · exact h

theorem Step.recorded (hst : Step c symbols s e t) (h : s.Recorded c names q)
    (hnames : Function.Injective names) (hn : 2 * n + 2 ≤ orderPoolSize) (hq : q ≠ 0)
    (hmin : 4 ≤ c.mMinSpread.toInt) (hs : ∀ i, Storable (names i))
    (hsymbols : ∀ symbol ∈ symbols, Storable symbol) : t.Recorded c names q := by
  cases hst with
  | opened ht =>
    have hshown := ht.shows
    exact ⟨ht.sane h.sane hnames hn hq hmin, h.keys,
      fun i bid ask hi => h.ticked i bid ask (by rw [← hi]; exact congrFun hshown.symm i),
      fun i price hi => h.unticked i price (by rw [← hi]; exact congrFun hshown.symm i)⟩
  | @ticked _ i bid ask prices entries ht hp ho =>
    subst hp
    have hname : s.thread.symbol i = names i := h.sane.symbol_eq i
    have hself : Function.update s.lastUpdatedPrices (s.thread.symbol i)
        (some (midPrice bid ask)) (names i) = some (midPrice bid ask) := hname ▸ Function.update_self ..
    have hother : ∀ {j}, j ≠ i → Function.update s.lastUpdatedPrices (s.thread.symbol i)
        (some (midPrice bid ask)) (names j) = s.lastUpdatedPrices (names j) := fun hji =>
      Function.update_of_ne (fun he => hji (hnames (he.trans hname))) _ _
    refine ⟨ht.sane h.sane hnames hn hq hmin, h.keys.update (hname ▸ hs i) _,
      fun j bid' ask' hj => ?_, fun j price hj hprice => ?_⟩
    · rw [show _ = _ from ht.shows, SimulatorThread.showing] at hj
      by_cases hji : j = i
      · subst hji
        rw [Function.update_self] at hj
        cases hj
        exact hself
      · rw [Function.update_of_ne hji] at hj
        exact (hother hji).trans (h.ticked j bid' ask' hj)
    · rw [show _ = _ from ht.shows, SimulatorThread.showing] at hj
      have hji : j ≠ i := fun he => by
        rw [he, Function.update_self] at hj
        cases hj
      rw [Function.update_of_ne hji] at hj
      exact (hother hji).trans (h.unticked j price hj hprice)
  | close hp ho =>
    subst hp
    refine ⟨h.sane, StorableKeys.foldl (fun p k hk hkeys => ?_) h.keys,
      fun i bid ask hi => addInitial_some (h.ticked i bid ask hi) _,
      fun i price hi hprice => addInitial_some (h.unticked i price hi hprice) _⟩
    rw [addInitial]
    split
    · exact hkeys.update (hsymbols k hk) _
    · exact hkeys

/-- The file is that of the day before until the first tick, and then holds the prices kept. -/
theorem Step.written {file : Option (List UInt8)} (hst : Step c symbols s e t)
    (h : (∀ i, s.thread.shown i = none) ∧ s.stateFile = file ∨ s.Written) :
    (∀ i, t.thread.shown i = none) ∧ t.stateFile = file ∨ t.Written := by
  cases hst with
  | opened ht =>
    rcases h with ⟨hnone, hfile⟩ | h
    · exact .inl ⟨fun i => (congrFun ht.shows i).trans (hnone i), hfile⟩
    · exact .inr h
  | ticked ht hp ho => exact .inr ⟨_, ho, rfl⟩
  | close hp ho => exact .inr ⟨_, ho, rfl⟩

theorem getInitialPrice_of {c : SimulatorSettings} {symbol : List UInt8} {price : Int64}
    (h : c.mInitialPrices symbol = some price) : c.getInitialPrice symbol = price := by
  rw [SimulatorSettings.getInitialPrice, h]
  rfl

/-- A market of storable symbols reopens where it closed: whenever a session ends, the next one reads an
initial price for every symbol, half way between the prices last shown, or the initial price of the
day, if there is one, where none were shown. -/
theorem reopens_where_closed {engines : Fin n → List UInt8} {shared : Fin n → Collaborators}
    {file : Option (List UInt8)} {defaults : SymbolPriceMap}
    {ts : List (MarketSession n × SessionEvent n × MarketSession n)}
    (hn : 2 * n + 2 ≤ orderPoolSize)
    (hnames : Function.Injective (Simulation.startSymbols engines shared)) (hq : 0 < q)
    (hmin : 4 ≤ c.mMinSpread.toInt) (hs : ∀ i, Storable (Simulation.startSymbols engines shared i))
    (hsymbols : ∀ symbol ∈ symbols, Storable symbol) (hdefaults : StorableKeys defaults)
    (hread : readMarketState file symbols defaults = some c.mInitialPrices)
    (h : Runs (Step c symbols) (start engines shared q c.mInitialPrices file) ts s) :
    ∃ next, readMarketState s.stateFile symbols defaults = some next ∧ StorableKeys next ∧
      (∀ i bid ask, s.thread.shown i = some (bid, ask) →
        { c with mInitialPrices := next }.getInitialPrice
          (Simulation.startSymbols engines shared i) = midPrice bid ask) ∧
      ∀ i price, s.thread.shown i = none →
        c.mInitialPrices (Simulation.startSymbols engines shared i) = some price →
        { c with mInitialPrices := next }.getInitialPrice
          (Simulation.startSymbols engines shared i) = price := by
  have hq' : q ≠ 0 := UInt32.pos_iff_ne_zero.1 hq
  obtain ⟨hrec, hwritten⟩ := h.invariant
    (I := fun u => u.Recorded c (Simulation.startSymbols engines shared) q ∧
      ((∀ i, u.thread.shown i = none) ∧ u.stateFile = file ∨ u.Written))
    ⟨⟨SimulatorThread.sane_start c engines shared q, hdefaults.read hread,
      fun _ _ _ hi => by (cases hi),
      fun _ _ _ hi => hi⟩, .inl ⟨fun _ => rfl, rfl⟩⟩
    fun _ _ _ hu hst =>
      ⟨hst.recorded hu.1 hnames hn hq' hmin hs hsymbols, hst.written hu.2⟩
  rcases hwritten with ⟨hnone, hfile⟩ | ⟨entries, ho, hfile⟩
  · refine ⟨c.mInitialPrices, hfile ▸ hread, hdefaults.read hread, fun i bid ask hi => ?_,
      fun i price _ hi => ?_⟩
    · rw [hnone i] at hi
      cases hi
    · exact getInitialPrice_of hi
  · have hstorable : ∀ e ∈ entries, Storable e.1 := fun e he => hrec.keys e.1 (by
      rw [(ho.mem_iff e.1 e.2).1 he]
      exact nofun)
    obtain ⟨next, hnext, hkept⟩ := readMarketState_recovers ho hstorable symbols defaults
    refine ⟨next, hfile ▸ hnext, hdefaults.read hnext, fun i bid ask hi => ?_,
      fun i price hi hprice => ?_⟩
    · exact getInitialPrice_of (hkept _ _ (hrec.ticked i bid ask hi))
    · exact getInitialPrice_of (hkept _ _ (hrec.unticked i price hi hprice))

/-- A session without a state file, in which the one engine ticks once. -/
theorem reopens_where_closed_first : ∃ ts, ∃ s : MarketSession 1, ∃ bid ask next,
    Runs (Step { mInitialPrices := enter (fun _ => none) ([65], 17500) } [[65]])
      (start (fun _ => [65]) (fun _ => {}) 500 (enter (fun _ => none) ([65], 17500)) none) ts s ∧
    s.thread.shown 0 = some (bid, ask) ∧
    readMarketState s.stateFile [[65]] (enter (fun _ => none) ([65], 17500)) = some next ∧
    SimulatorSettings.getInitialPrice { mInitialPrices := next }
      (Simulation.startSymbols (n := 1) (fun _ => [65]) (fun _ => {}) 0) = midPrice bid ask := by
  obtain ⟨c, hc⟩ : ∃ c : SimulatorSettings,
    c = { mInitialPrices := enter (fun _ => none) ([65], 17500) } := ⟨_, rfl⟩
  have hn : 2 * 1 + 2 ≤ orderPoolSize := by decide
  have hq : (500 : UInt32) ≠ 0 := by decide
  have hname : ∀ i, Simulation.startSymbols (n := 1) (fun _ => [65]) (fun _ => {}) i = [65] := by
    decide +kernel
  have hsymbols : Function.Injective (Simulation.startSymbols (n := 1) (fun _ => [65]) fun _ => {}) :=
    Function.injective_of_subsingleton _
  have hA : Storable [65] := ⟨by decide, by decide, by decide⟩
  have hdefaults : StorableKeys (enter (fun _ => none) ([65], 17500)) :=
    StorableKeys.update (fun _ h => absurd rfl h) hA _
  obtain ⟨t, ht, hturn, hsane'⟩ := SimulatorThread.exists_opened c
  obtain ⟨pool', hpool'⟩ := hsane'.sound.exists_answer hn
  have hd : c.MayDraw 5 := by
    rw [hc]
    exact ⟨by decide, by decide⟩
  have hmin : 4 ≤ c.mMinSpread.toInt := by
    rw [hc]
    decide
  obtain ⟨u, hu, -⟩ := hsane'.tick hsymbols hn hq hmin hturn.ge hd hpool' 0 0
  have htick := SimulatorThread.Step.tick (c := c) hturn.ge (by rw [hturn]; rfl) hd hpool' hu
  have horder : ∀ x y : Int64, IterationOrder (Function.update (enter (fun _ => none) ([65], x))
      (t.symbol 0) (some y)) [([65], y)] := by
    intro x y
    rw [(hsane'.symbol_eq 0).trans (hname 0)]
    refine ⟨List.nodup_singleton _, fun symbol price => ?_⟩
    by_cases hs : symbol = [65]
    · simp [hs, enter, eq_comm]
    · simp [hs, enter]
  have hread : readMarketState none [[65]] (enter (fun _ => none) ([65], 17500)) =
      some c.mInitialPrices := by
    rw [hc]
    rfl
  have hopened : Step c [[65]] (start (fun _ => [65]) (fun _ => {}) 500 c.mInitialPrices none)
      (.simulator (.opened 0)) ⟨t, c.mInitialPrices, none⟩ := .opened ht
  have hticked : Step c [[65]] ⟨t, c.mInitialPrices, none⟩ _ _ := .ticked htick rfl
    (by rw [hc]; exact horder _ _)
  have hrun := (Runs.nil.snoc hopened).snoc hticked
  have hshown : u.shown 0 = some (bidAsk (randomWalk (t.currentPrices (t.symbol 0)) 0) 5) := by
    rw [show _ = _ from htick.shows, SimulatorThread.showing]
    exact Function.update_self ..
  obtain ⟨next, hnext, -, hmid, -⟩ := reopens_where_closed hn hsymbols (by decide) hmin
    (fun i => (hname i).symm ▸ hA) (List.forall_mem_singleton.2 hA) hdefaults hread hrun
  have hprice := hmid 0 _ _ hshown
  subst hc
  exact ⟨_, _, _, _, next, hrun, hshown, hnext, hprice⟩

end MarketSession

end Velox
