import Mathlib

namespace AverageCost
set_option autoImplicit true

/-- An account kept at average cost: what is held, the profit that sales have locked in, the entry
price, and how many units were ever bought. -/
@[ext] structure Account (α : Type*) where
  net : α
  realized : α
  avg : α
  bought : α
  deriving DecidableEq

namespace Account
variable {α : Type*} [CommRing α] {s : Account α} {q x a cash : α}

/-- Buy, moving the entry price to the one given. -/
def buy (q a : α) (s : Account α) : Account α :=
  { s with net := s.net + q, avg := a, bought := s.bought + q }

/-- Sell, locking in the difference to the entry price. -/
def sell (q x : α) (s : Account α) : Account α :=
  { s with net := s.net - q, realized := s.realized + (x - s.avg) * q }

/-- The profit locked in and that of closing the position at a price. -/
def profit (x : α) (s : Account α) : α := s.realized + (x - s.avg) * s.net

def sold (s : Account α) : α := s.bought - s.net

/-- What the account claims to have made beyond the cash it took in. -/
def excess (cash : α) (s : Account α) : α := s.realized - s.avg * s.net - cash

theorem profit_eq (x cash : α) (s : Account α) :
    s.profit x = cash + s.net * x + s.excess cash := by
  rw [profit, excess]
  ring

@[simp] theorem sold_buy : (s.buy q a).sold = s.sold := by
  simp only [sold, buy]
  ring

@[simp] theorem sold_sell : (s.sell q x).sold = s.sold + q := by
  simp only [sold, sell]
  ring

theorem excess_sell : (s.sell q x).excess (cash + q * x) = s.excess cash := by
  simp only [excess, sell]
  ring

/-- A weighted average revalues the units that are already sold. -/
theorem excess_buy (h : a * (s.bought + q) = s.avg * s.bought + x * q) :
    (s.buy q a).excess (cash - q * x) = s.excess cash + (a - s.avg) * s.sold := by
  simp only [excess, buy, sold]
  linear_combination -h

theorem avg_eq_iff [IsDomain α] (h : a * (s.bought + q) = s.avg * s.bought + x * q) (hq : q ≠ 0)
    (hb : s.bought + q ≠ 0) : a = s.avg ↔ x = s.avg := by
  constructor
  · rintro rfl
    exact mul_right_cancel₀ hq (by linear_combination -h)
  · rintro rfl
    exact mul_right_cancel₀ hb (by linear_combination h)

theorem excess_buy_eq_iff [IsDomain α] (h : a * (s.bought + q) = s.avg * s.bought + x * q)
    (hq : q ≠ 0) (hb : s.bought + q ≠ 0) :
    (s.buy q a).excess (cash - q * x) = s.excess cash ↔ s.sold = 0 ∨ x = s.avg := by
  rw [excess_buy h, add_eq_left, mul_eq_zero, sub_eq_zero, avg_eq_iff h hq hb, or_comm]

end Account

/-- A mean in whole units, with the weight it stands for. -/
structure Mean where
  value : ℕ := 0
  weight : ℕ := 0
  deriving DecidableEq

namespace Mean
variable {m : Mean} {q x lost : ℕ} {xs : List (ℕ × ℕ)}

/-- Take in a weight at a value, rounding the new mean down. -/
def add (q x : ℕ) (m : Mean) : Mean :=
  ⟨(m.value * m.weight + x * q) / (m.weight + q), m.weight + q⟩

/-- The mean of weights at values, rounded down at each of them. -/
def running (xs : List (ℕ × ℕ)) : Mean := xs.foldl (fun m y => m.add y.1 y.2) {}

/-- The exact sum that the mean stands for. -/
def sum (xs : List (ℕ × ℕ)) : ℕ := (xs.map fun y => y.1 * y.2).sum

theorem sum_snoc : sum (xs ++ [(q, x)]) = sum xs + q * x := by
  simp only [sum, List.map_append, List.map_cons, List.map_nil, List.sum_append, List.sum_cons,
    List.sum_nil, add_zero]

@[simp] theorem weight_add : (m.add q x).weight = m.weight + q := rfl

theorem running_snoc : running (xs ++ [(q, x)]) = (running xs).add q x := by
  rw [running, List.foldl_append]
  rfl

theorem weight_pos (hxs : ∀ y ∈ xs, 0 < y.1) (hne : xs ≠ []) : 0 < (running xs).weight := by
  obtain ⟨ys, y, rfl⟩ := List.eq_nil_or_concat xs |>.resolve_left hne
  rw [List.concat_eq_append] at hxs ⊢
  rw [running_snoc, weight_add]
  exact Nat.add_pos_right _ (hxs y (by simp))

theorem lost_add {c : ℕ} (h : c = m.value * m.weight + lost) :
    c + q * x = (m.add q x).value * (m.add q x).weight +
      (lost + (m.value * m.weight + x * q) % (m.weight + q)) := by
  have hdiv := Nat.div_add_mod' (m.value * m.weight + x * q) (m.weight + q)
  simp only [add]
  rw [h, Nat.mul_comm q x]
  omega

/-- The first rounding is exact, and each later one loses less than the weight it divides by. -/
theorem lost_le (hxs : ∀ y ∈ xs, 0 < y.1) : ∃ lost,
    sum xs = (running xs).value * (running xs).weight + lost ∧
      lost ≤ (xs.length - 1) * ((running xs).weight - 1) := by
  induction xs using List.reverseRecOn with
  | nil => exact ⟨0, rfl, le_rfl⟩
  | append_singleton xs y ih =>
    obtain ⟨q, x⟩ := y
    have hq : 0 < q := hxs (q, x) (by simp)
    obtain ⟨lost, hsum, hlost⟩ := ih fun y hy => hxs y (List.mem_append_left _ hy)
    refine ⟨_, by rw [sum_snoc, running_snoc]; exact lost_add hsum, ?_⟩
    rw [running_snoc, List.length_append, List.length_singleton, Nat.add_sub_cancel]
    cases xs with
    | nil =>
      have hzero : lost = 0 := Nat.le_zero.1 (hlost.trans_eq (Nat.zero_mul _))
      subst hzero
      simp [running]
    | cons y ys =>
      set m := running (y :: ys)
      have hrem := Nat.mod_lt (m.value * m.weight + x * q) (Nat.add_pos_right m.weight hq)
      have hmono : ys.length * (m.weight - 1) ≤ ys.length * (m.weight + q - 1) :=
        Nat.mul_le_mul_left _ (by omega)
      rw [List.length_cons, Nat.add_sub_cancel] at hlost
      rw [List.length_cons, Nat.succ_mul, weight_add]
      omega

/-- So a mean of weights is off by less than one for each rounding after the first. -/
theorem lost_lt (hxs : ∀ y ∈ xs, 0 < y.1) (hne : xs ≠ []) : ∃ lost,
    sum xs = (running xs).value * (running xs).weight + lost ∧
      lost < max 1 (xs.length - 1) * (running xs).weight := by
  obtain ⟨lost, hsum, hlost⟩ := lost_le hxs
  have hw := weight_pos hxs hne
  refine ⟨lost, hsum, hlost.trans_lt ?_⟩
  calc (xs.length - 1) * ((running xs).weight - 1)
      ≤ max 1 (xs.length - 1) * ((running xs).weight - 1) :=
        Nat.mul_le_mul_right _ (le_max_right _ _)
    _ < max 1 (xs.length - 1) * (running xs).weight :=
        Nat.mul_lt_mul_of_pos_left (by omega) (by omega)

end Mean

end AverageCost
