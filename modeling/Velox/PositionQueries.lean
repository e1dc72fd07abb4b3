import Velox.ProfitAndLoss

namespace Velox
set_option autoImplicit true

def Order.trimmed (o : Order) : Order := { o with symbol := .ofChars (trimSpaces o.symbol.cstr) }

def PositionUpdate.trimmed (c : PositionUpdate) : PositionUpdate :=
  { c with order := c.order.trimmed }

namespace PositionManager

/-- The four getters answer for one name in one book as they do for another name in another. -/
def AnswersAs (pm : PositionManager) (symbol : List UInt8) (pm' : PositionManager)
    (symbol' : List UInt8) : Prop :=
  pm.getPosition symbol = pm'.getPosition symbol' ∧
    pm.getRealizedPnl symbol = pm'.getRealizedPnl symbol' ∧
      ∀ currentPrice : Int64,
        pm.getUnrealizedPnl symbol currentPrice = pm'.getUnrealizedPnl symbol' currentPrice ∧
          pm.getTotalPnl symbol currentPrice = pm'.getTotalPnl symbol' currentPrice

end PositionManager

/-- A record for which every getter answers 0. -/
def Position.Flat (pos : Position) : Prop := pos.netPosition = 0 ∧ pos.realizedPnl = 0

section Queries
variable {pm pm' : PositionManager} {symbol symbol' : List UInt8}

theorem trimSpaces_trimSpaces (symbol : List UInt8) :
    trimSpaces (trimSpaces symbol) = trimSpaces symbol :=
  List.rdropWhile_idempotent _ _

namespace Order

theorem trimmed_cstr (o : Order) : o.trimmed.symbol.cstr = trimSpaces o.symbol.cstr := by
  have hpre : trimSpaces o.symbol.cstr <+: o.symbol.cstr := List.rdropWhile_prefix _ _
  apply Symbol.cstr_ofChars
  · exact hpre.length_le.trans o.symbol.length_cstr
  · intro b hb
    exact Symbol.ne_zero_of_mem_cstr (hpre.subset hb)

@[simp] theorem trimmed_key (o : Order) : o.trimmed.key = o.key := by
  rw [key, trimmed_cstr, trimSpaces_trimSpaces]
  rfl

@[simp] theorem trimmed_isBuy (o : Order) : o.trimmed.isBuy = o.isBuy := rfl

theorem trimSpaces_key (o : Order) : trimSpaces o.key = o.key := trimSpaces_trimSpaces _

end Order

namespace PositionManager

/-- The writer trims, so it does not matter whether the symbols were trimmed before. -/
theorem record_trimmed (calls : List PositionUpdate) (pm : PositionManager) :
    pm.record (calls.map .trimmed) = pm.record calls := by
  induction calls generalizing pm with
  | nil => rfl
  | cons c calls ih =>
    have hstep : pm.updatePosition (some c.order.trimmed) c.fillQuantity c.fillPrice =
        pm.updatePosition (some c.order) c.fillQuantity c.fillPrice := by
      simp only [updatePosition, Order.trimmed_key, Order.trimmed_isBuy]
    calc pm.record ((c :: calls).map .trimmed)
        = (pm.updatePosition (some c.order.trimmed) c.fillQuantity c.fillPrice).record
            (calls.map .trimmed) := rfl
      _ = (pm.updatePosition (some c.order) c.fillQuantity c.fillPrice).record
            (calls.map .trimmed) := by rw [hstep]
      _ = pm.record (c :: calls) := ih _

/-- Nothing is filed under a name that ends in a space. -/
def Trimmed (pm : PositionManager) : Prop :=
  ∀ key, trimSpaces key ≠ key → pm.mPositions key = none

theorem Trimmed.updatePosition (h : pm.Trimmed) (o : Option Order) (q : UInt32) (x : Int64) :
    (pm.updatePosition o q x).Trimmed := by
  intro key hkey
  cases o with
  | none => exact h key hkey
  | some o =>
    rw [PositionManager.updatePosition]
    split
    · exact h key hkey
    · have hne : key ≠ o.key := by
        rintro rfl
        exact hkey o.trimSpaces_key
      exact (Function.update_of_ne hne _ _).trans (h key hkey)

theorem Trimmed.record (h : pm.Trimmed) (calls : List PositionUpdate) :
    (pm.record calls).Trimmed := by
  induction calls generalizing pm with
  | nil => exact h
  | cons c calls ih => exact ih (h.updatePosition _ _ _)

theorem getPosition_eq : pm.getPosition symbol = (pm.position symbol).netPosition := by
  rw [getPosition, position]
  cases pm.mPositions symbol <;> rfl

theorem getTotalPnl_eq (currentPrice : Int64) : pm.getTotalPnl symbol currentPrice =
    (pm.position symbol).realizedPnl + (pm.position symbol).unrealizedPnl currentPrice := by
  rw [getTotalPnl, getRealizedPnl_eq, getUnrealizedPnl_eq]

theorem answersAs_iff : pm.AnswersAs symbol pm' symbol' ↔
    (pm.position symbol).netPosition = (pm'.position symbol').netPosition ∧
      (pm.position symbol).realizedPnl = (pm'.position symbol').realizedPnl ∧
        ∀ currentPrice : Int64, (pm.position symbol).unrealizedPnl currentPrice =
          (pm'.position symbol').unrealizedPnl currentPrice := by
  simp only [AnswersAs, getPosition_eq, getRealizedPnl_eq, getUnrealizedPnl_eq, getTotalPnl_eq]
  constructor
  · rintro ⟨hnet, hrealized, hprofit⟩
    exact ⟨hnet, hrealized, fun currentPrice => (hprofit currentPrice).1⟩
  · rintro ⟨hnet, hrealized, hprofit⟩
    refine ⟨hnet, hrealized, fun currentPrice => ⟨hprofit currentPrice, ?_⟩⟩
    rw [hrealized, hprofit]

theorem answersAs_absent_iff (h : pm.mPositions symbol = none) :
    pm.AnswersAs symbol pm' symbol' ↔ (pm'.position symbol').Flat := by
  have hblank : pm.position symbol = {} := by
    rw [position, h]
    rfl
  rw [answersAs_iff, hblank]
  constructor
  · rintro ⟨hnet, hrealized, -⟩
    exact ⟨hnet.symm, hrealized.symm⟩
  · rintro ⟨hnet, hrealized⟩
    refine ⟨hnet.symm, hrealized.symm, fun currentPrice => ?_⟩
    rw [Position.unrealizedPnl, Position.unrealizedPnl, if_pos rfl, if_pos hnet]

/-- The getters do not search for the name they trimmed: they answer as for trimmed names exactly
when the query has nothing to trim, or there is nothing to tell under its trimmed name. -/
theorem answersAs_trimmed_iff (calls : List PositionUpdate) (symbol : List UInt8) :
    (record calls {}).AnswersAs symbol (record (calls.map .trimmed) {}) (trimSpaces symbol) ↔
      trimSpaces symbol = symbol ∨ ((record calls {}).position (trimSpaces symbol)).Flat := by
  rw [record_trimmed]
  by_cases htrim : trimSpaces symbol = symbol
  · constructor
    · intro _
      exact .inl htrim
    · intro _
      rw [answersAs_iff, htrim]
      exact ⟨rfl, rfl, fun _ => rfl⟩
  · have hempty : Trimmed {} := fun _ _ => rfl
    rw [answersAs_absent_iff (hempty.record calls symbol htrim), or_iff_right htrim]

/-- Ten units of a name that has a space behind it in the query. -/
theorem padded_query_misses :
    ¬ ∀ (calls : List PositionUpdate) (symbol : List UInt8),
      (record calls {}).AnswersAs symbol (record (calls.map .trimmed) {}) (trimSpaces symbol) := by
  intro h
  have haapl := (h [⟨{ symbol := .ofChars [65, 65, 80, 76] }, 10, 100⟩]
    [65, 65, 80, 76, 32]).1
  revert haapl
  decide +kernel

end PositionManager

end Queries

end Velox
