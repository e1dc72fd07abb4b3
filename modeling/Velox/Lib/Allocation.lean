import Velox.Lib.Greedy

namespace Greedy
set_option autoImplicit true

/-- A plan that takes no more of any entry than it holds, and nothing of one that is not acceptable. -/
structure Allocation (ok : κ → Bool) (xs : List (κ × ℕ)) (f : κ → ℕ) : Prop where
  fits : ∀ x ∈ xs, f x.1 ≤ x.2
  refused : ∀ x ∈ xs, ok x.1 = false → f x.1 = 0

def planned (f : κ → ℕ) (xs : List (κ × ℕ)) : ℕ := (xs.map fun x => f x.1).sum

variable {κ R : Type*} [CommRing R] {ok : κ → Bool} {q : ℕ} {xs : List (κ × ℕ)} {f : κ → ℕ}
  {c : κ → R} {m : R}

/-- What units cost at the prices of their keys. -/
def cost (c : κ → R) (xs : List (κ × ℕ)) : R := (xs.map fun x => c x.1 * x.2).sum

def planCost (c : κ → R) (f : κ → ℕ) (xs : List (κ × ℕ)) : R :=
  (xs.map fun x => c x.1 * f x.1).sum

@[simp] theorem planned_nil : planned f [] = 0 := rfl

@[simp] theorem planned_cons (x : κ × ℕ) (xs : List (κ × ℕ)) :
    planned f (x :: xs) = f x.1 + planned f xs := List.sum_cons

@[simp] theorem cost_nil : cost c [] = 0 := rfl

@[simp] theorem cost_cons (x : κ × ℕ) (xs : List (κ × ℕ)) :
    cost c (x :: xs) = c x.1 * x.2 + cost c xs := List.sum_cons

@[simp] theorem planCost_nil : planCost c f [] = 0 := rfl

@[simp] theorem planCost_cons (x : κ × ℕ) (xs : List (κ × ℕ)) :
    planCost c f (x :: xs) = c x.1 * f x.1 + planCost c f xs := List.sum_cons

theorem Allocation.tail {x : κ × ℕ} (h : Allocation ok (x :: xs) f) : Allocation ok xs f where
  fits := fun y hy => h.fits y (List.mem_cons_of_mem x hy)
  refused := fun y hy => h.refused y (List.mem_cons_of_mem x hy)

theorem Allocation.planned_le (h : Allocation ok xs f) :
    planned f xs ≤ total (xs.filter fun x => ok x.1) := by
  induction xs with
  | nil => exact le_rfl
  | cons x xs ih =>
    have hle := ih h.tail
    rw [planned_cons]
    cases hk : ok x.1 with
    | false =>
      rw [h.refused x List.mem_cons_self hk, List.filter_cons_of_neg (by rw [hk]; decide)]
      omega
    | true =>
      have hfits := h.fits x List.mem_cons_self
      rw [List.filter_cons_of_pos (by exact hk), total_cons]
      omega

theorem Allocation.planned_le_taken (h : Allocation ok xs f)
    (hok : xs.Pairwise fun x y => ok y.1 = true → ok x.1 = true) (hq : planned f xs ≤ q) :
    planned f xs ≤ total (consume ok q xs).taken := by
  have hle := h.planned_le
  have hleft := left_eq_of_sorted (q := q) hok
  have htotal := total_taken_add_left ok q xs
  omega

theorem mem_rest {x : κ × ℕ} (h : x ∈ (consume ok q xs).rest) : ∃ a, (x.1, a) ∈ xs ∧ x.2 ≤ a := by
  induction xs generalizing q with
  | nil => cases h
  | cons y xs ih =>
    obtain ⟨k, a⟩ := y
    have hold : ∀ {q}, x ∈ (consume ok q xs).rest → ∃ b, (x.1, b) ∈ (k, a) :: xs ∧ x.2 ≤ b := by
      intro q hx
      obtain ⟨b, hb, hle⟩ := ih hx
      exact ⟨b, List.mem_cons_of_mem _ hb, hle⟩
    rw [consume] at h
    split_ifs at h with h₁ h₂
    · exact ⟨x.2, h, le_rfl⟩
    · exact hold h
    · rcases List.mem_cons.1 h with rfl | h
      · exact ⟨a, List.mem_cons_self, Nat.sub_le a q⟩
      · exact ⟨x.2, List.mem_cons_of_mem _ h, le_rfl⟩

theorem keys_taken (ok : κ → Bool) (q : ℕ) (xs : List (κ × ℕ)) :
    ((consume ok q xs).taken.map Prod.fst).Sublist (xs.map Prod.fst) := by
  induction xs generalizing q with
  | nil => exact List.Sublist.refl _
  | cons x xs ih =>
    obtain ⟨k, a⟩ := x
    rw [consume]
    split_ifs with h₁ h₂
    · exact List.nil_sublist _
    · exact (ih (q - a)).cons_cons k
    · exact (List.nil_sublist _).cons_cons k

theorem keys_rest (ok : κ → Bool) (q : ℕ) (xs : List (κ × ℕ)) :
    ((consume ok q xs).rest.map Prod.fst).Sublist (xs.map Prod.fst) := by
  induction xs generalizing q with
  | nil => exact List.Sublist.refl _
  | cons x xs ih =>
    obtain ⟨k, a⟩ := x
    rw [consume]
    split_ifs with h₁ h₂
    · exact List.Sublist.refl _
    · exact (ih (q - a)).cons k
    · exact List.Sublist.refl _

theorem taken_le_rest (ok : κ → Bool) {r : κ → κ → Prop} (hrefl : ∀ k, r k k)
    (h : xs.Pairwise fun x y => r x.1 y.1) (q : ℕ) :
    ∀ x ∈ (consume ok q xs).taken, ∀ y ∈ (consume ok q xs).rest, r x.1 y.1 := by
  induction xs generalizing q with
  | nil => intro x hx; cases hx
  | cons z xs ih =>
    obtain ⟨k, a⟩ := z
    obtain ⟨hhead, htail⟩ := List.pairwise_cons.1 h
    have hrest : ∀ y ∈ (consume ok (q - a) xs).rest, r k y.1 := by
      intro y hy
      obtain ⟨b, hb, -⟩ := mem_rest hy
      exact hhead (y.1, b) hb
    rw [consume]
    split_ifs with h₁ h₂
    · intro x hx
      cases hx
    · intro x hx y hy
      rcases List.mem_cons.1 hx with rfl | hx
      · exact hrest y hy
      · exact ih htail (q - a) x hx y hy
    · intro x hx y hy
      rw [List.mem_singleton.1 hx]
      rcases List.mem_cons.1 hy with rfl | hy
      · exact hrefl k
      · exact hhead y hy

section Order

variable [LinearOrder R] [IsStrictOrderedRing R]

theorem le_planCost (h : ∀ x ∈ xs, m ≤ c x.1) : m * planned f xs ≤ planCost c f xs := by
  induction xs with
  | nil => simp only [planned_nil, Nat.cast_zero, mul_zero, planCost_nil, le_refl]
  | cons x xs ih =>
    have hx := mul_le_mul_of_nonneg_right (h x List.mem_cons_self) (Nat.cast_nonneg (f x.1))
    have hxs := ih fun y hy => h y (List.mem_cons_of_mem x hy)
    rw [planned_cons, planCost_cons, Nat.cast_add, mul_add]
    exact add_le_add hx hxs

/-- At a price between what is taken and what is left, no plan saves anything over the draw: each
unit that it takes or leaves otherwise costs as much as the price at least. -/
theorem cost_add_le (h : Allocation ok xs f) (hlow : ∀ x ∈ (consume ok q xs).taken, c x.1 ≤ m)
    (hhigh : ∀ y ∈ (consume ok q xs).rest, m ≤ c y.1) :
    cost c (consume ok q xs).taken + m * planned f xs ≤
      planCost c f xs + m * total (consume ok q xs).taken := by
  induction xs generalizing q with
  | nil =>
    simp only [consume_nil, cost_nil, planned_nil, planCost_nil, total_nil, Nat.cast_zero, mul_zero,
      add_zero, le_refl]
  | cons x xs ih =>
    obtain ⟨k, a⟩ := x
    rw [consume] at hlow hhigh ⊢
    split_ifs at hlow hhigh ⊢ with h₁ h₂
    · rw [cost_nil, total_nil, Nat.cast_zero, mul_zero, zero_add, add_zero]
      exact le_planCost hhigh
    · have hk : c k ≤ m := hlow _ List.mem_cons_self
      have hfits : ((f k : ℕ) : R) ≤ a := Nat.cast_le.2 (h.fits _ List.mem_cons_self)
      have hgain := mul_nonneg (sub_nonneg.2 hk) (sub_nonneg.2 hfits)
      have hrest := ih h.tail (fun y hy => hlow y (List.mem_cons_of_mem _ hy)) hhigh
      simp only [cost_cons, planned_cons, planCost_cons, total_cons, Nat.cast_add]
      linarith
    · have hk : c k ≤ m := hlow _ List.mem_cons_self
      have hk' : m ≤ c k := hhigh _ List.mem_cons_self
      have hrest := le_planCost (f := f) fun y hy => hhigh y (List.mem_cons_of_mem _ hy)
      simp only [cost_cons, cost_nil, planned_cons, planCost_cons, total_cons, total_nil,
        Nat.cast_add, add_zero, le_antisymm hk hk', mul_add]
      linarith

/-- A draw on a queue with the lowest price first costs no more than any plan that takes as much. -/
theorem Allocation.cost_le (h : Allocation ok xs f) (hsorted : xs.Pairwise fun x y => c x.1 ≤ c y.1)
    (htotal : planned f xs = total (consume ok q xs).taken) :
    cost c (consume ok q xs).taken ≤ planCost c f xs := by
  cases htaken : (consume ok q xs).taken with
  | nil =>
    rw [htaken, total_nil] at htotal
    have hzero : ∀ ys : List (κ × ℕ), planned f ys = 0 → planCost c f ys = 0 := by
      intro ys
      induction ys with
      | nil => exact fun _ => rfl
      | cons y ys ih =>
        intro hy
        rw [planned_cons, Nat.add_eq_zero_iff] at hy
        rw [planCost_cons, hy.1, ih hy.2, Nat.cast_zero, mul_zero, add_zero]
    rw [cost_nil, hzero xs htotal]
  | cons x taken =>
    -- the price of the dearest entry taken
    obtain ⟨y, hy, hmax⟩ := Set.exists_max_image {x | x ∈ (consume ok q xs).taken}
      (fun x => c x.1) (List.finite_toSet _) ⟨x, htaken ▸ List.mem_cons_self⟩
    have hle := cost_add_le h hmax
      (taken_le_rest ok (r := fun k k' => c k ≤ c k') (fun k => le_rfl) hsorted q y hy)
    rw [htotal] at hle
    rw [← htaken]
    exact le_of_add_le_add_right hle

end Order

end Greedy
