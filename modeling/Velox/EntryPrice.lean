import Velox.ProfitAndLoss

namespace Velox
set_option autoImplicit true

open AverageCost History

/-- What the buys cost a unit, unrounded. -/
def exactAverage (calls : List PositionUpdate) : ℚ := valueOn true calls / unitsOn true calls

def fillsOf (calls : List PositionUpdate) : List (ℕ × ℕ) :=
  calls.map fun c => (c.fillQuantity.toNat, c.fillPrice.toInt.toNat)

variable {symbol : List UInt8} {calls : List PositionUpdate} {c : PositionUpdate}

theorem fillsOf_snoc : fillsOf (calls ++ [c]) =
    fillsOf calls ++ [(c.fillQuantity.toNat, c.fillPrice.toInt.toNat)] := by
  rw [fillsOf, List.map_append]
  rfl

namespace Admissible

theorem fillsOf_pos (h : Admissible symbol calls) : ∀ y ∈ fillsOf calls, 0 < y.1 := by
  intro y hy
  obtain ⟨c, hc, rfl⟩ := List.mem_map.1 hy
  have hne := h.filled c hc
  rw [Ne, ← UInt32.toNat_inj] at hne
  exact Nat.pos_of_ne_zero hne

theorem record_of_buys (h : Admissible symbol calls) (hb : ∀ c ∈ calls, c.order.isBuy = true) :
    (recordOf symbol calls).avgEntryPrice.toInt = (Mean.running (fillsOf calls)).value ∧
    unitsOn true calls = (Mean.running (fillsOf calls)).weight ∧
    valueOn true calls = Mean.sum (fillsOf calls) := by
  induction calls using List.reverseRecOn with
  | nil => exact ⟨rfl, rfl, rfl⟩
  | append_singleton calls c ih =>
    obtain ⟨havg, hunits, hvalue⟩ := ih h.init fun d hd => hb d (List.mem_append_left _ hd)
    have hc : c.order.isBuy = true := hb c (by simp)
    have hx : (c.fillPrice.toInt.toNat : ℤ) = c.fillPrice.toInt := Int.toNat_of_nonneg h.last_price
    rw [fillsOf_snoc, Mean.running_snoc, Mean.sum_snoc]
    refine ⟨?_, ?_, ?_⟩
    · have hnew : (recordOf symbol (calls ++ [c])).avgEntryPrice.toInt = _ :=
        congrArg Account.avg (h.account_buy hc)
      simp only [Account.buy] at hnew
      rw [hnew, Position.weightedSum, h.init.tracks.bought, havg, hunits, ← hx, Mean.add]
      push_cast
      rfl
    · rw [unitsOn_same calls hc, hunits, Mean.weight_add]
    · rw [valueOn_same hc, hvalue, ← hx]
      push_cast
      rfl

end Admissible

/-- The average entry price of buys is never above the exact average, and below it by less than
one unit for every buy that rounds. -/
theorem avgEntryPrice_near (h : Admissible symbol calls) (hb : ∀ c ∈ calls, c.order.isBuy = true) :
    ((recordOf symbol calls).avgEntryPrice.toInt : ℚ) ≤ exactAverage calls ∧
    exactAverage calls <
      (recordOf symbol calls).avgEntryPrice.toInt + (max 1 (calls.length - 1) : ℕ) := by
  rcases eq_or_ne calls [] with rfl | hne
  · simp [exactAverage, recordOf, PositionManager.record, PositionManager.position]
  · obtain ⟨havg, hunits, hvalue⟩ := h.record_of_buys hb
    have hfills : fillsOf calls ≠ [] := fun he => hne (List.map_eq_nil_iff.1 he)
    obtain ⟨lost, hsum, hlost⟩ := Mean.lost_lt h.fillsOf_pos hfills
    have hw : (0 : ℚ) < (Mean.running (fillsOf calls)).weight :=
      Nat.cast_pos.2 (Mean.weight_pos h.fillsOf_pos hfills)
    rw [exactAverage, hvalue, hunits, havg, hsum]
    rw [show (fillsOf calls).length = calls.length from List.length_map _] at hlost
    push_cast
    rw [add_div, mul_div_cancel_right₀ _ hw.ne']
    refine ⟨le_add_of_nonneg_right (div_nonneg (Nat.cast_nonneg _) hw.le), ?_⟩
    rw [add_lt_add_iff_left, div_lt_iff₀ hw]
    exact_mod_cast hlost

/-- Two buys, the second of which rounds. -/
theorem avgEntryPrice_near_two_buys :
    exactAverage [aaplFill .BUY 1 10000, aaplFill .BUY 1 10001] < 10000 + 1 := by
  have h₁ := aaplFills_nil.1.snoc (c := aaplFill .BUY 1 10000) (by decide) (by decide) (by decide)
    (by decide +kernel)
  have h₂ := h₁.snoc (c := aaplFill .BUY 1 10001) (by decide) (by decide) (by decide)
    (by decide +kernel)
  exact (avgEntryPrice_near h₂ (by decide)).2

/-- Three buys at 10000, 10001 and 10002 are booked at an average of 10000, a whole unit below the
exact one. -/
theorem avgEntryPrice_not_near_three_buys :
    Admissible [65, 65, 80, 76]
      [aaplFill .BUY 1 10000, aaplFill .BUY 1 10001, aaplFill .BUY 1 10002] ∧
    ¬ |((recordOf [65, 65, 80, 76] [aaplFill .BUY 1 10000, aaplFill .BUY 1 10001,
        aaplFill .BUY 1 10002]).avgEntryPrice.toInt : ℚ) -
      exactAverage [aaplFill .BUY 1 10000, aaplFill .BUY 1 10001, aaplFill .BUY 1 10002]| < 1 := by
  have h₁ := aaplFills_nil.1.snoc (c := aaplFill .BUY 1 10000) (by decide) (by decide) (by decide)
    (by decide +kernel)
  have h₂ := h₁.snoc (c := aaplFill .BUY 1 10001) (by decide) (by decide) (by decide)
    (by decide +kernel)
  have h₃ := h₂.snoc (c := aaplFill .BUY 1 10002) (by decide) (by decide) (by decide)
    (by decide +kernel)
  have havg : (recordOf [65, 65, 80, 76] [aaplFill .BUY 1 10000, aaplFill .BUY 1 10001,
      aaplFill .BUY 1 10002]).avgEntryPrice.toInt = 10000 := by decide +kernel
  have hexact : exactAverage
      [aaplFill .BUY 1 10000, aaplFill .BUY 1 10001, aaplFill .BUY 1 10002] = 10001 := by
    have hvalue : valueOn true
        [aaplFill .BUY 1 10000, aaplFill .BUY 1 10001, aaplFill .BUY 1 10002] = 30003 := by decide
    have hunits : unitsOn true
        [aaplFill .BUY 1 10000, aaplFill .BUY 1 10001, aaplFill .BUY 1 10002] = 3 := by decide
    rw [exactAverage, hvalue, hunits]
    norm_num
  refine ⟨h₃, ?_⟩
  rw [havg, hexact]
  norm_num

end Velox
