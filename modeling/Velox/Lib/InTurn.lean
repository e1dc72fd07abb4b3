import Mathlib

set_option autoImplicit true

namespace InTurn

/-- Of the first values of a sequence, any so many in a row are distinct. -/
def Spread (n m : ℕ) (f : ℕ → α) : Prop := ∀ i, i + n ≤ m → Set.InjOn f (Set.Ico i (i + n))

variable {n m a b : ℕ} {f : ℕ → ℕ}

theorem eq_of_mod_eq (hab : a ≤ b) (hlt : b < a + n) (h : a % n = b % n) : a = b := by
  have hdvd : n ∣ b - a := (Nat.modEq_iff_dvd' hab).1 h
  have hzero := Nat.eq_zero_of_dvd_of_lt hdvd (by omega)
  omega

theorem spread_mod (h : ∀ k < m, f k = k % n) : Spread n m f := by
  intro i hi a ha b hb hab
  obtain ⟨ha₁, ha₂⟩ := ha
  obtain ⟨hb₁, hb₂⟩ := hb
  rw [h a (by omega), h b (by omega)] at hab
  rcases Nat.le_total a b with hle | hle
  · exact eq_of_mod_eq hle (by omega) hab
  · exact (eq_of_mod_eq hle (by omega) hab.symm).symm

theorem exists_mod_eq {k s : ℕ} (hk : n ≤ k) (hs : s < n) (hne : s ≠ k % n) :
    ∃ j, j < k ∧ k < j + n ∧ j % n = s := by
  have hr := Nat.mod_lt k (by omega : 0 < n)
  have hdiv := Nat.div_add_mod k n
  have hpos : 0 < k / n := Nat.div_pos hk (by omega)
  rcases Nat.lt_or_gt_of_ne hne with hlt | hgt
  · refine ⟨n * (k / n) + s, by omega, by omega, ?_⟩
    rw [Nat.mul_add_mod, Nat.mod_eq_of_lt hs]
  · obtain ⟨q, hq⟩ : ∃ q, k / n = q + 1 := ⟨k / n - 1, by omega⟩
    rw [hq, Nat.mul_succ] at hdiv
    refine ⟨n * q + s, by omega, by omega, ?_⟩
    rw [Nat.mul_add_mod, Nat.mod_eq_of_lt hs]

/-- A sequence that starts in turn is spread exactly as long as it goes on in turn: the first value
out of turn is one of the last. -/
theorem spread_iff (hlt : ∀ k < m, f k < n) (hstart : ∀ k < m, k < n → f k = k) :
    Spread n m f ↔ ∀ k < m, f k = k % n := by
  constructor
  · intro hs k
    induction k using Nat.strong_induction_on with
    | _ k ih =>
      intro hk
      by_cases hkn : k < n
      · rw [hstart k hk hkn, Nat.mod_eq_of_lt hkn]
      · by_contra hne
        obtain ⟨j, hjk, hkj, hj⟩ := exists_mod_eq (Nat.le_of_not_lt hkn) (hlt k hk) hne
        have hsame : f j = f k := (ih j hjk (hjk.trans hk)).trans hj
        have hinj := hs (k + 1 - n) (by omega) ⟨by omega, by omega⟩ ⟨by omega, by omega⟩ hsame
        omega
  · exact spread_mod

end InTurn
