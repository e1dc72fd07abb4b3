import Mathlib

namespace BigEndian
set_option autoImplicit true

/-- The number that bytes spell, the first being the most significant. -/
def value (bs : List UInt8) : ℕ := bs.foldl (fun n b => 256 * n + b.toNat) 0

/-- The last bytes of a number, the most significant first. -/
def bytes : ℕ → ℕ → List UInt8
  | 0, _ => []
  | k + 1, n => bytes k (n / 256) ++ [UInt8.ofNat n]

variable {bs : List UInt8} {k n : ℕ}

theorem value_snoc (bs : List UInt8) (b : UInt8) : value (bs ++ [b]) = 256 * value bs + b.toNat := by
  rw [value, List.foldl_append]
  rfl

theorem value_lt (bs : List UInt8) : value bs < 256 ^ bs.length := by
  induction bs using List.reverseRecOn with
  | nil => exact Nat.one_pos
  | append_singleton bs b ih =>
    have hb := b.toNat_lt
    rw [value_snoc, List.length_append, List.length_singleton, pow_succ]
    omega

theorem value_bytes (h : n < 256 ^ k) : value (bytes k n) = n := by
  induction k generalizing n with
  | zero =>
    rw [pow_zero] at h
    exact (Nat.lt_one_iff.1 h).symm
  | succ k ih =>
    have hdiv : n / 256 < 256 ^ k := by
      rw [Nat.div_lt_iff_lt_mul (by decide), ← pow_succ]
      exact h
    rw [bytes, value_snoc, ih hdiv, UInt8.toNat_ofNat']
    omega

theorem bytes_eq_map (k n : ℕ) :
    bytes k n = (List.range k).map fun i => UInt8.ofNat (n >>> (8 * (k - 1 - i))) := by
  induction k generalizing n with
  | zero => rfl
  | succ k ih =>
    rw [bytes, ih, List.range_succ, List.map_append, List.map_singleton, Nat.add_sub_cancel,
      Nat.sub_self]
    congr 1
    refine List.map_congr_left fun i hi => ?_
    have hlt := List.mem_range.1 hi
    rw [show (256 : ℕ) = 2 ^ 8 from rfl, ← Nat.shiftRight_eq_div_pow, ← Nat.shiftRight_add,
      show 8 + 8 * (k - 1 - i) = 8 * (k - i) by omega]

theorem shift_or (n : ℕ) (b : UInt8) : n <<< 8 ||| b.toNat = 256 * n + b.toNat := by
  rw [← Nat.shiftLeft_add_eq_or_of_lt b.toNat_lt, Nat.shiftLeft_eq, Nat.mul_comm]

/-- A word that takes bytes in from below holds their value as long as none is pushed out. -/
theorem foldl_value {toNat : ω → ℕ} {push : ω → UInt8 → ω} {zero : ω} (hzero : toNat zero = 0)
    (hpush : ∀ w b, toNat w < 256 ^ k → toNat (push w b) = 256 * toNat w + b.toNat)
    (hlen : bs.length ≤ k + 1) : toNat (bs.foldl push zero) = value bs := by
  induction bs using List.reverseRecOn with
  | nil => exact hzero
  | append_singleton bs b ih =>
    rw [List.length_append, List.length_singleton] at hlen
    have hbs := ih (by omega)
    have hlt : toNat (bs.foldl push zero) < 256 ^ k := by
      rw [hbs]
      exact (value_lt bs).trans_le (Nat.pow_le_pow_right (by decide) (by omega))
    rw [List.foldl_append, List.foldl_cons, List.foldl_nil, hpush _ _ hlt, hbs, value_snoc]

end BigEndian
