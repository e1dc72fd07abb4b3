import Velox.Market
import Velox.Reference
import Velox.SimulatorThread
import Velox.SnapshotLoop

namespace Velox
set_option autoImplicit true

/-- The threads of a session on the same engines: the simulator's, the one for cancels, and for each
symbol a worker and a snapshot thread, which may be in its inner loop. Each snapshot thread has a pool
of its own; the handles in `botStorage` keep its cells. -/
structure TradingFloor (n : ℕ) where
  thread : SimulatorThread n
  shared : Collaborators
  manager : BotManager
  loops : Fin n → SnapshotLoop
  botStorage : Fin n → List OrderPtr := fun _ => []
  handing : Fin n → Bool := fun _ => false
  submitted : List Submission := []

inductive FloorEvent (n : ℕ)
  | simulator (e : SimulatorEvent n)
  | snapshot (i : Fin n) (handed : Option BookSnapshot) (submissions : List Submission)
  | hand (i : Fin n) (p : OrderPtr) (o : Order)
  | drop (i : Fin n) (o : Order)
  | sweep (i : Fin n)
  | process (i : Fin n)
  | cancel (orderId : UInt64)

def FloorEvent.taken (i : Fin n) : FloorEvent n → Option Order
  | .hand j _ o => if j = i then some o else none
  | .drop j o => if j = i then some o else none
  | _ => none

def FloorEvent.simulated : FloorEvent n → Option (SimulatorEvent n)
  | .simulator e => some e
  | _ => none

namespace TradingFloor

variable {n : ℕ}

def start (symbols : Fin n → List UInt8) (shared : Collaborators) (restingQuantity : UInt32) :
    TradingFloor n where
  thread := .start symbols (fun _ => shared) restingQuantity
  shared := shared
  manager := .registered (List.ofFn symbols)
  loops := fun _ => .start 5

def engine (s : TradingFloor n) (i : Fin n) : SymbolEngine := s.thread.market.engines i

def run (s : TradingFloor n) (i : Fin n) : EngineRun :=
  { (s.engine i).mEngine with shared := s.shared }

def storage (s : TradingFloor n) (i : Fin n) : OrderStorage := ⟨s.engine i, s.botStorage i⟩

def putEngine (s : TradingFloor n) (i : Fin n) (e : EngineRun) : TradingFloor n :=
  { s with thread.market.engines :=
      Function.update s.thread.market.engines i { s.engine i with mEngine := e } }

def putStorage (s : TradingFloor n) (i : Fin n) (t : OrderStorage) : TradingFloor n :=
  { s.putEngine i t.engine.mEngine with
    botStorage := Function.update s.botStorage i t.botStorage }

/-- What becomes of the snapshot that an iteration hands to the bots, if any. -/
def brief (handed : Option BookSnapshot) (draws : ℕ → Draws) (m : BotManager) :
    List Submission × BotManager :=
  match handed with
  | none => ([], m)
  | some snapshot => m.onSnapshot snapshot draws

/-- The engines are asked in order, up to the first that accepts the id. -/
def cancelLoop (id : UInt64) : List (Fin n) → TradingFloor n → TradingFloor n
  | [], s => s
  | i :: is, s =>
    let r := (s.engine i).cancelOrder id
    let t := s.putEngine i r.2.mEngine
    if r.1 then t else cancelLoop id is t

/-- One move of one thread: an engine's part of a round of the simulator; an iteration of a snapshot
loop, from the update of the manager to what the bots push; an order taken from the bots and handed to
its engine, one by one until there is none left, and the sweep then; an order processed; a cancel
request taken to the engines. Each is taken as a whole, although the source has no lock that makes it
one: moves that overlap are left out. -/
inductive Step (c : SimulatorSettings) : TradingFloor n → FloorEvent n → TradingFloor n → Prop
  | simulator {s : TradingFloor n} {e : SimulatorEvent n} {t : SimulatorThread n}
      (h : SimulatorThread.Step c s.thread e t) : Step c s (.simulator e) { s with thread := t }
  | snapshot {s : TradingFloor n} {i : Fin n} {loop : SnapshotLoop} (draws : ℕ → Draws)
      (hi : s.handing i = false)
      (h : (s.loops i).iterate (s.engine i).orderBook = some loop) :
      Step c s (.snapshot i loop.handed (brief loop.handed draws s.manager).1)
        { s with
          manager := (brief loop.handed draws s.manager).2
          loops := Function.update s.loops i loop
          handing := Function.update s.handing i true
          submitted := s.submitted ++ (brief loop.handed draws s.manager).1 }
  | hand {s : TradingFloor n} {i : Fin n} {m : BotManager} {o : Order} {cell : OrderCell}
      (hi : s.handing i = true)
      (hpop : s.manager.popOrderForSymbol (s.engine i).symbol = some (o, m))
      (hp : MarketSimulator.MayAcquire (fun p => p ∈ s.botStorage i) (some cell)) :
      Step c s (.hand i cell.1 o)
        { s.putStorage i ((s.storage i).submit cell.1 o) with manager := m }
  | drop {s : TradingFloor n} {i : Fin n} {m : BotManager} {o : Order} (hi : s.handing i = true)
      (hpop : s.manager.popOrderForSymbol (s.engine i).symbol = some (o, m))
      (hp : MarketSimulator.MayAcquire (fun p => p ∈ s.botStorage i) none) :
      Step c s (.drop i o) { s with manager := m }
  | sweep {s : TradingFloor n} {i : Fin n} (hi : s.handing i = true)
      (hpop : s.manager.popOrderForSymbol (s.engine i).symbol = none) :
      Step c s (.sweep i)
        { s.putStorage i (s.storage i).sweep with handing := Function.update s.handing i false }
  | process {s : TradingFloor n} {i : Fin n} {t : EngineRun}
      (h : (s.run i).matchCycleBody = some (.inr t)) :
      Step c s (.process i) { s.putEngine i t with shared := t.shared }
  | cancel {s : TradingFloor n} {m : BotManager} {id : UInt64}
      (hpop : s.manager.popCancel = some (id, m)) :
      Step c s (.cancel id) { cancelLoop id (List.finRange n) s with manager := m }

def reference (s : TradingFloor n) (i : Fin n) : RefBook :=
  (⟨(s.engine i).mEngine.engine.mOrderBook, (s.engine i).mEngine.orders, []⟩ : Session).reference

def taken (i : Fin n) (ts : List (TradingFloor n × FloorEvent n × TradingFloor n)) : List Order :=
  ts.filterMap fun x => x.2.1.taken i

variable {s : TradingFloor n} {i j : Fin n}

theorem engine_putEngine_self (s : TradingFloor n) (i : Fin n) (e : EngineRun) :
    (s.putEngine i e).engine i = { s.engine i with mEngine := e } := Function.update_self ..

theorem engine_putEngine_other (h : j ≠ i) (s : TradingFloor n) (e : EngineRun) :
    (s.putEngine i e).engine j = s.engine j := Function.update_of_ne h ..

theorem cancelLoop_invariant {I : TradingFloor n → Prop}
    (hput : ∀ s i e, I s → I (s.putEngine i e)) (id : UInt64) (is : List (Fin n)) (h : I s) :
    I (cancelLoop id is s) := by
  induction is generalizing s with
  | nil => exact h
  | cons i is ih =>
    rw [cancelLoop]
    split_ifs
    · exact hput s i _ h
    · exact ih (hput s i _ h)

end TradingFloor

end Velox
