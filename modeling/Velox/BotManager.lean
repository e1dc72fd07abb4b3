import Velox.Bots

namespace Velox
set_option autoImplicit true

inductive Strategy
  | marketMaker (b : MarketMakerBot)
  | spread (b : SpreadBot)
  | randomWalk (b : RandomWalkBot)
  | meanReversion (b : MeanReversionBot)
  | momentum (b : MomentumBot)

structure TradingBot where
  mSymbol : List UInt8
  strategy : Strategy

namespace TradingBot

def onSnapshot (snapshot : BookSnapshot) (draws : Draws) (updateCount : Int32) (b : TradingBot) :
    TradingBot × List Order × Int32 :=
  match b.strategy with
  | .marketMaker m =>
    let r := m.onSnapshot b.mSymbol snapshot updateCount
    ({ b with strategy := .marketMaker r.1 }, r.2)
  | .spread m =>
    let r := m.onSnapshot snapshot
    ({ b with strategy := .spread r.1 }, r.2, updateCount)
  | .randomWalk m =>
    let r := m.onSnapshot snapshot draws
    ({ b with strategy := .randomWalk r.1 }, r.2, updateCount)
  | .meanReversion m =>
    let r := m.onSnapshot snapshot
    ({ b with strategy := .meanReversion r.1 }, r.2, updateCount)
  | .momentum m =>
    let r := m.onSnapshot snapshot
    ({ b with strategy := .momentum r.1 }, r.2, updateCount)

end TradingBot

abbrev BotOrderQueue := SPSCQueue Order 65536

/-- The last field is the static counter of `MarketMakerBot::on_snapshot`. -/
structure BotManager where
  mBots : List TradingBot := []
  mOrderQueues : List UInt8 → Option BotOrderQueue := fun _ => none
  mCancelQueue : SPSCQueue UInt64 65536 := {}
  updateCount : Int32 := 0

/-- An order that the bot at a place in the register has submitted. -/
structure Submission where
  bot : ℕ
  order : Order

namespace BotManager

def registerBot (bot : TradingBot) (m : BotManager) : BotManager :=
  { m with mBots := m.mBots ++ [bot] }

/-- The queue of a symbol is created lazily. -/
def pushOrder (order : Order) (m : BotManager) : BotManager :=
  let q := (m.mOrderQueues order.symbol.cstr).getD {}
  { m with mOrderQueues := Function.update m.mOrderQueues order.symbol.cstr (some (q.push order).2) }

def popOrderForSymbol (symbol : List UInt8) (m : BotManager) : Option (Order × BotManager) :=
  ((m.mOrderQueues symbol).bind SPSCQueue.pop).map fun r =>
    (r.1, { m with mOrderQueues := Function.update m.mOrderQueues symbol (some r.2) })

def pushCancel (orderId : UInt64) (m : BotManager) : BotManager :=
  { m with mCancelQueue := (m.mCancelQueue.push orderId).2 }

def popCancel (m : BotManager) : Option (UInt64 × BotManager) :=
  m.mCancelQueue.pop.map fun r => (r.1, { m with mCancelQueue := r.2 })

/-- The bots of the snapshot's symbol are called in the order of their registration; `draws` are those
of the bot at a place. -/
def deliver (snapshot : BookSnapshot) (draws : ℕ → Draws) :
    ℕ → Int32 → List TradingBot → List TradingBot × List Submission × Int32
  | _, n, [] => ([], [], n)
  | i, n, b :: bs =>
    let r := if b.mSymbol = snapshot.symbol.cstr then b.onSnapshot snapshot (draws i) n
      else (b, [], n)
    let rs := deliver snapshot draws (i + 1) r.2.2 bs
    (r.1 :: rs.1, r.2.1.map (⟨i, ·⟩) ++ rs.2.1, rs.2.2)

def onSnapshot (snapshot : BookSnapshot) (draws : ℕ → Draws) (m : BotManager) :
    List Submission × BotManager :=
  let r := deliver snapshot draws 0 m.updateCount m.mBots
  (r.2.1, r.2.1.foldl (fun m x => m.pushOrder x.order)
    { m with mBots := r.1, updateCount := r.2.2 })

def botsFor (symbol : List UInt8) : List TradingBot :=
  [⟨symbol, .marketMaker {}⟩, ⟨symbol, .spread {}⟩, ⟨symbol, .randomWalk {}⟩,
    ⟨symbol, .meanReversion {}⟩, ⟨symbol, .momentum {}⟩]

def registered (symbols : List (List UInt8)) : BotManager :=
  (symbols.flatMap botsFor).foldl (fun m bot => m.registerBot bot) {}

end BotManager

end Velox
