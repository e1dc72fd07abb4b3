import Velox.RiskManager
import Velox.Lib.Buckets

namespace Velox
set_option autoImplicit true

/-- The calls that change a risk manager's positions. -/
inductive RiskCall
  | setPositionLimit (symbol : List UInt8) (limit : UInt32)
  | updatePosition (order : Order) (fillQuantity : UInt32)

namespace RiskCall

def name : RiskCall → List UInt8
  | setPositionLimit symbol _ => symbol
  | updatePosition order _ => order.symbol.cstr

def apply : RiskCall → RiskPosition → RiskPosition
  | setPositionLimit _ limit, pos => { pos with limit }
  | updatePosition order fillQuantity, pos =>
    if order.isBuy then { pos with longPosition := pos.longPosition + fillQuantity }
    else { pos with shortPosition := pos.shortPosition + fillQuantity }

end RiskCall

namespace RiskManager

def call (r : RiskManager) : RiskCall → RiskManager
  | .setPositionLimit symbol limit => r.setPositionLimit symbol limit
  | .updatePosition order fillQuantity => r.updatePosition order fillQuantity

def after (calls : List RiskCall) (r : RiskManager) : RiskManager := calls.foldl call r

end RiskManager

/-- The symbols of one to seven characters. -/
def IsSymbol (symbol : List UInt8) : Prop :=
  1 ≤ symbol.length ∧ symbol.length ≤ 7 ∧ ∀ c ∈ symbol, c ≠ 0

instance : DecidablePred IsSymbol := fun _ => inferInstanceAs (Decidable (_ ∧ _ ∧ _))

/-- Two risk managers answer alike about a symbol. -/
structure SameAnswers (symbol : List UInt8) (r r' : RiskManager) : Prop where
  order : ∀ o : Order, o.symbol.cstr = symbol → r.checkOrder (some o) = r'.checkOrder (some o)
  position : ∀ (o : Order) (q : UInt32), o.symbol.cstr = symbol →
    r.checkPosition (some o) q = r'.checkPosition (some o) q
  current : r.currentPosition symbol = r'.currentPosition symbol

/-- Inserting or removing calls that name the one symbol never changes an answer about the other. -/
def LimitsIndependent (named asked : List UInt8) : Prop :=
  ∀ calls calls' : List RiskCall,
    (calls.filter fun c => c.name ≠ named) = (calls'.filter fun c => c.name ≠ named) →
      SameAnswers asked (RiskManager.after calls {}) (RiskManager.after calls' {})

section Independence
variable {r r' : RiskManager} {calls : List RiskCall} {s t : List UInt8}

namespace RiskManager

theorem call_eq (r : RiskManager) (c : RiskCall) : r.call c =
    { r with mPositions := Function.update r.mPositions (hashSymbol c.name)
                (c.apply (r.mPositions (hashSymbol c.name))) } := by
  cases c <;> rfl

theorem mPositions_after (calls : List RiskCall) (r : RiskManager) :
    (r.after calls).mPositions =
      Buckets.run hashSymbol RiskCall.name RiskCall.apply calls r.mPositions := by
  induction calls generalizing r with
  | nil => rfl
  | cons c calls ih =>
    rw [after, List.foldl_cons, ← after, ih, call_eq]
    rfl

@[simp] theorem mCircuitBreaker_after (calls : List RiskCall) (r : RiskManager) :
    (r.after calls).mCircuitBreaker = r.mCircuitBreaker := by
  induction calls generalizing r with
  | nil => rfl
  | cons c calls ih =>
    rw [after, List.foldl_cons, ← after, ih, call_eq]

end RiskManager

theorem SameAnswers.of_bucket (hb : r.mCircuitBreaker = r'.mCircuitBreaker)
    (h : r.mPositions (RiskManager.hashSymbol s) = r'.mPositions (RiskManager.hashSymbol s)) :
    SameAnswers s r r' := by
  have hpos (o : Order) (q : UInt32) (ho : o.symbol.cstr = s) :
      r.checkPosition (some o) q = r'.checkPosition (some o) q := by
    simp only [RiskManager.checkPosition, ho, h]
  have hactive : r.isCircuitBreakerActive = r'.isCircuitBreakerActive := hb
  refine ⟨fun o ho => ?_, hpos, ?_⟩
  · simp only [RiskManager.checkOrder, hactive, hpos o _ ho]
  · simp only [RiskManager.currentPosition, h]

/-- A limit of 0 under a name with the same hash stops every buy. -/
theorem not_independent_of_hash_eq (ht : IsSymbol t)
    (h : RiskManager.hashSymbol s = RiskManager.hashSymbol t) : ¬ LimitsIndependent s t := by
  intro hi
  have hsame := hi [.setPositionLimit s 0] [] (by simp [RiskCall.name])
  have hname : (Symbol.ofChars t).cstr = t :=
    Symbol.cstr_ofChars (ht.2.1.trans (by decide)) ht.2.2
  have hbuy := hsame.position { symbol := Symbol.ofChars t, side := .BUY } 1 hname
  simp only [RiskManager.checkPosition, Order.isBuy, BEq.rfl, if_true, hname, ← h,
    RiskManager.after, List.foldl_cons, List.foldl_nil, RiskManager.call,
    RiskManager.setPositionLimit, Function.update_self] at hbuy
  exact absurd hbuy (by decide)

end Independence

/-- The limits of two symbols are independent exactly when their hashes differ. -/
theorem limits_independent_iff (ht : IsSymbol t) :
    LimitsIndependent s t ↔ RiskManager.hashSymbol s ≠ RiskManager.hashSymbol t := by
  constructor
  · exact fun hi he => not_independent_of_hash_eq ht he hi
  · intro hne calls calls' hfilter
    refine .of_bucket (by simp) ?_
    rw [RiskManager.mPositions_after, RiskManager.mPositions_after]
    exact Buckets.run_eq_of_filter_eq hne hfilter

/-- The limits of AAPL and MSFT do not disturb each other. -/
theorem limits_independent_aapl_msft :
    LimitsIndependent [65, 65, 80, 76] [77, 83, 70, 84] :=
  (limits_independent_iff (by decide +kernel)).2 (by decide +kernel)

/-- Those of GOOGL and ORCL are kept in one place. -/
theorem googl_orcl_share_limits :
    IsSymbol [71, 79, 79, 71, 76] ∧ IsSymbol [79, 82, 67, 76] ∧
    ¬ LimitsIndependent [71, 79, 79, 71, 76] [79, 82, 67, 76] := by
  refine ⟨by decide +kernel, by decide +kernel, fun hi => ?_⟩
  have hsame := hi [.setPositionLimit [71, 79, 79, 71, 76] 0] [] rfl
  have hname : (Symbol.ofChars [79, 82, 67, 76]).cstr = [79, 82, 67, 76] := by decide
  have hbuy := hsame.position { symbol := Symbol.ofChars [79, 82, 67, 76], side := .BUY } 1 hname
  revert hbuy
  decide +kernel

end Velox
