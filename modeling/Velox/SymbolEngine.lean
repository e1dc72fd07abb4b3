import Velox.MatchingEngine

namespace Velox
set_option autoImplicit true

/-- The engine of one symbol: the book that it shows, and the matching engine with what that works
on. -/
structure SymbolEngine where
  mBook : OrderBook
  mEngine : EngineRun

namespace SymbolEngine

def new (symbol : List UInt8) (shared : Collaborators) : SymbolEngine where
  mBook := OrderBook.new symbol
  mEngine := ⟨MatchingEngine.new symbol, shared, fun _ => default⟩

def onMarketOrder (order : Option OrderPtr) (s : SymbolEngine) : Bool × SymbolEngine :=
  ((s.mEngine.submitOrder order).1, { s with mEngine := (s.mEngine.submitOrder order).2 })

def runMatchCycle (s : SymbolEngine) : Option SymbolEngine :=
  s.mEngine.runMatchCycle.map fun r => { s with mEngine := r }

def cancelOrder (id : UInt64) (s : SymbolEngine) : Bool × SymbolEngine :=
  ((s.mEngine.cancelOrder id).1, { s with mEngine := (s.mEngine.cancelOrder id).2 })

def orderBook (s : SymbolEngine) : OrderBook := s.mBook

end SymbolEngine

end Velox
