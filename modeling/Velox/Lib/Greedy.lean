import Mathlib

namespace Greedy
set_option autoImplicit true

/-- What a greedy draw on a queue takes, what it leaves in the queue and what it still wants. -/
@[ext] structure Outcome (κ : Type*) where
  taken : List (κ × ℕ)
  rest : List (κ × ℕ)
  left : ℕ
  deriving DecidableEq

variable {κ : Type*} {ok : κ → Bool} {q : ℕ} {xs ys : List (κ × ℕ)}

/-- Draw `q` units from the front of a queue, as long as the front entry is acceptable. -/
def consume (ok : κ → Bool) : ℕ → List (κ × ℕ) → Outcome κ
  | q, [] => ⟨[], [], q⟩
  | q, (k, a) :: xs =>
    if q = 0 ∨ ok k = false then ⟨[], (k, a) :: xs, q⟩
    else if a ≤ q then
      let r := consume ok (q - a) xs
      ⟨(k, a) :: r.taken, r.rest, r.left⟩
    else ⟨[(k, q)], (k, a - q) :: xs, 0⟩

def total (xs : List (κ × ℕ)) : ℕ := (xs.map Prod.snd).sum

@[simp] theorem total_nil : total ([] : List (κ × ℕ)) = 0 := rfl

@[simp] theorem total_cons (x : κ × ℕ) (xs : List (κ × ℕ)) : total (x :: xs) = x.2 + total xs := by
  simp only [total, List.map_cons, List.sum_cons]

@[simp] theorem total_append (xs ys : List (κ × ℕ)) : total (xs ++ ys) = total xs + total ys := by
  simp only [total, List.map_append, List.sum_append]

@[simp] theorem consume_nil : consume ok q [] = ⟨[], [], q⟩ := rfl

@[simp] theorem consume_zero : consume ok 0 xs = ⟨[], xs, 0⟩ := by
  cases xs with
  | nil => rfl
  | cons x xs => rw [consume, if_pos (.inl rfl)]

theorem consume_refused (h : ok k = false) : consume ok q ((k, a) :: xs) = ⟨[], (k, a) :: xs, q⟩ := by
  rw [consume, if_pos (.inr h)]

theorem consume_whole (hq : q ≠ 0) (hk : ok k = true) (ha : a ≤ q) :
    consume ok q ((k, a) :: xs) =
      ⟨(k, a) :: (consume ok (q - a) xs).taken, (consume ok (q - a) xs).rest,
        (consume ok (q - a) xs).left⟩ := by
  rw [consume, if_neg (by simp only [hq, hk, false_or, Bool.true_eq_false, not_false_eq_true]),
    if_pos ha]

theorem consume_part (hq : q ≠ 0) (hk : ok k = true) (ha : q < a) :
    consume ok q ((k, a) :: xs) = ⟨[(k, q)], (k, a - q) :: xs, 0⟩ := by
  rw [consume, if_neg (by simp only [hq, hk, false_or, Bool.true_eq_false, not_false_eq_true]),
    if_neg (Nat.not_le_of_lt ha)]

theorem consume_append (hok : ∀ x ∈ xs, ok x.1 = true) :
    consume ok q (xs ++ ys) =
      ⟨(consume ok q xs).taken ++ (consume ok (consume ok q xs).left ys).taken,
        (consume ok q xs).rest ++ (consume ok (consume ok q xs).left ys).rest,
        (consume ok (consume ok q xs).left ys).left⟩ := by
  induction xs generalizing q with
  | nil => rfl
  | cons x xs ih =>
    obtain ⟨k, a⟩ := x
    have hk : ok k = true := hok _ List.mem_cons_self
    have hxs := fun y hy => hok y (List.mem_cons_of_mem _ hy)
    rcases Nat.eq_zero_or_pos q with rfl | hq
    · simp only [consume_zero, List.nil_append]
    · rcases Nat.lt_or_ge q a with ha | ha
      · rw [List.cons_append, consume_part hq.ne' hk ha, consume_part hq.ne' hk ha]
        simp only [consume_zero, List.append_nil, List.cons_append]
      · rw [List.cons_append, consume_whole hq.ne' hk ha, consume_whole hq.ne' hk ha, ih hxs]
        simp only [List.cons_append]

theorem consume_congr {g : κ → Bool} (h : ∀ x ∈ xs, ok x.1 = g x.1) :
    consume ok q xs = consume g q xs := by
  induction xs generalizing q with
  | nil => rfl
  | cons x xs ih =>
    obtain ⟨k, a⟩ := x
    have hk : ok k = g k := h _ List.mem_cons_self
    simp only [consume, hk, ih fun y hy => h y (List.mem_cons_of_mem _ hy)]

theorem consume_map {κ' : Type*} (f : κ → κ') (ok' : κ' → Bool) (q : ℕ) (xs : List (κ × ℕ)) :
    consume ok' q (xs.map (Prod.map f id)) =
      ⟨(consume (ok' ∘ f) q xs).taken.map (Prod.map f id),
        (consume (ok' ∘ f) q xs).rest.map (Prod.map f id), (consume (ok' ∘ f) q xs).left⟩ := by
  induction xs generalizing q with
  | nil => rfl
  | cons x xs ih =>
    obtain ⟨k, a⟩ := x
    simp only [List.map_cons, Prod.map_apply, id_eq, consume, Function.comp_apply, ih]
    split_ifs
    · simp only [List.map_nil, List.map_cons, Prod.map_apply, id_eq]
    · simp only [List.map_cons, Prod.map_apply, id_eq]
    · simp only [List.map_nil, List.map_cons, Prod.map_apply, id_eq]

theorem consume_none (h : ∀ x ∈ xs, ok x.1 = false) : consume ok q xs = ⟨[], xs, q⟩ := by
  cases xs with
  | nil => rfl
  | cons x xs => exact consume_refused (h _ List.mem_cons_self)

theorem total_taken_add_left (ok : κ → Bool) (q : ℕ) (xs : List (κ × ℕ)) :
    total (consume ok q xs).taken + (consume ok q xs).left = q := by
  induction xs generalizing q with
  | nil => simp only [consume_nil, total_nil, Nat.zero_add]
  | cons x xs ih =>
    obtain ⟨k, a⟩ := x
    rw [consume]
    split_ifs with h₁ h₂
    · simp only [total_nil, Nat.zero_add]
    · have := ih (q - a)
      simp only [total_cons]
      omega
    · simp only [total_cons, total_nil, Nat.add_zero]

theorem total_taken_add_rest (ok : κ → Bool) (q : ℕ) (xs : List (κ × ℕ)) :
    total (consume ok q xs).taken + total (consume ok q xs).rest = total xs := by
  induction xs generalizing q with
  | nil => rfl
  | cons x xs ih =>
    obtain ⟨k, a⟩ := x
    rw [consume]
    split_ifs with h₁ h₂
    · simp only [total_nil, Nat.zero_add]
    · have := ih (q - a)
      simp only [total_cons]
      omega
    · simp only [total_cons, total_nil]
      omega

theorem rest_eq_nil (hok : ∀ x ∈ xs, ok x.1 = true) (h : 0 < (consume ok q xs).left) :
    (consume ok q xs).rest = [] := by
  induction xs generalizing q with
  | nil => rfl
  | cons x xs ih =>
    obtain ⟨k, a⟩ := x
    have hk : ok k = true := hok _ List.mem_cons_self
    have hq : q ≠ 0 := by
      rintro rfl
      simp only [consume_zero, lt_self_iff_false] at h
    rcases Nat.lt_or_ge q a with ha | ha
    · rw [consume_part hq hk ha] at h
      exact absurd h (lt_irrefl 0)
    · rw [consume_whole hq hk ha] at h ⊢
      exact ih (fun y hy => hok y (List.mem_cons_of_mem _ hy)) h

theorem left_eq (hok : ∀ x ∈ xs, ok x.1 = true) : (consume ok q xs).left = q - total xs := by
  have hq := total_taken_add_left ok q xs
  have hxs := total_taken_add_rest ok q xs
  rcases Nat.eq_zero_or_pos (consume ok q xs).left with h | h
  · omega
  · rw [rest_eq_nil hok h, total_nil] at hxs
    omega

/-- Where no acceptable entry is behind one that is not, a draw lacks what the acceptable ones do not
supply. -/
theorem left_eq_of_sorted (h : xs.Pairwise fun x y => ok y.1 = true → ok x.1 = true) :
    (consume ok q xs).left = q - total (xs.filter fun x => ok x.1) := by
  induction xs generalizing q with
  | nil => rfl
  | cons x xs ih =>
    obtain ⟨k, a⟩ := x
    obtain ⟨hx, hxs⟩ := List.pairwise_cons.1 h
    cases hk : ok k with
    | false =>
      have hnone : ((k, a) :: xs).filter (fun x => ok x.1) = [] := by
        refine List.filter_eq_nil_iff.2 fun y hy hy' => ?_
        rcases List.mem_cons.1 hy with rfl | hy
        · exact Bool.false_ne_true (hk.symm.trans hy')
        · exact Bool.false_ne_true (hk.symm.trans (hx y hy hy'))
      rw [consume_refused hk, hnone, total_nil, Nat.sub_zero]
    | true =>
      rw [List.filter_cons_of_pos (by exact hk), total_cons]
      rcases Nat.eq_zero_or_pos q with rfl | hq
      · simp only [consume_zero, Nat.zero_sub]
      · rcases Nat.lt_or_ge q a with ha | ha
        · rw [consume_part hq.ne' hk ha]
          simp only
          omega
        · rw [consume_whole hq.ne' hk ha, ih hxs]
          omega

theorem mem_taken {x : κ × ℕ} (h : x ∈ (consume ok q xs).taken) :
    ok x.1 = true ∧ ∃ a, (x.1, a) ∈ xs ∧ x.2 ≤ a := by
  induction xs generalizing q with
  | nil => cases h
  | cons y xs ih =>
    obtain ⟨k, a⟩ := y
    rw [consume] at h
    split_ifs at h with h₁ h₂
    · cases h
    · rcases List.mem_cons.1 h with rfl | h
      · exact ⟨by simpa using fun hf => h₁ (.inr hf), a, List.mem_cons_self, le_rfl⟩
      · obtain ⟨hk, b, hb, hle⟩ := ih h
        exact ⟨hk, b, List.mem_cons_of_mem _ hb, hle⟩
    · rw [List.mem_singleton] at h
      subst h
      exact ⟨by simpa using fun hf => h₁ (.inr hf), a, List.mem_cons_self, by omega⟩

theorem head_taken (a : ℕ) (xs : List (κ × ℕ)) (hq : q ≠ 0) (hk : ok k = true) :
    ∃ n ys, (consume ok q ((k, a) :: xs)).taken = (k, n) :: ys := by
  rcases Nat.lt_or_ge q a with ha | ha
  · exact ⟨q, [], by rw [consume_part hq hk ha]⟩
  · exact ⟨a, _, by rw [consume_whole hq hk ha]⟩

def amount [DecidableEq κ] (k : κ) (xs : List (κ × ℕ)) : ℕ := total (xs.filter fun x => x.1 = k)

section Amount

variable [DecidableEq κ] {k : κ} {a : ℕ}

@[simp] theorem amount_nil : amount k [] = 0 := rfl

theorem amount_cons (x : κ × ℕ) (xs : List (κ × ℕ)) :
    amount k (x :: xs) = (if x.1 = k then x.2 else 0) + amount k xs := by
  simp only [amount, List.filter_cons, decide_eq_true_eq]
  split
  · rw [total_cons]
  · rw [Nat.zero_add]

/-- A draw moves units, key by key, from the queue to what is taken. -/
theorem amount_consume (ok : κ → Bool) (k : κ) (q : ℕ) (xs : List (κ × ℕ)) :
    amount k (consume ok q xs).taken + amount k (consume ok q xs).rest = amount k xs := by
  induction xs generalizing q with
  | nil => rfl
  | cons x xs ih =>
    obtain ⟨c, b⟩ := x
    rw [consume]
    split_ifs with h₁ h₂
    · simp only [amount_nil, Nat.zero_add]
    · have := ih (q - b)
      simp only [amount_cons]
      omega
    · simp only [amount_cons, amount_nil]
      split <;> omega

theorem amount_le_total (k : κ) (xs : List (κ × ℕ)) : amount k xs ≤ total xs := by
  induction xs with
  | nil => exact le_rfl
  | cons x xs ih =>
    rw [amount_cons, total_cons]
    split <;> omega

theorem le_amount (h : (k, a) ∈ xs) : a ≤ amount k xs := by
  induction xs with
  | nil => cases h
  | cons x xs ih =>
    rw [amount_cons]
    rcases List.mem_cons.1 h with rfl | h
    · rw [if_pos rfl]
      omega
    · have := ih h
      omega

theorem exists_mem_of_amount (h : 0 < amount k xs) : ∃ a, (k, a) ∈ xs := by
  induction xs with
  | nil => cases h
  | cons x xs ih =>
    by_cases he : x.1 = k
    · exact ⟨x.2, he ▸ List.mem_cons_self⟩
    · rw [amount_cons, if_neg he, Nat.zero_add] at h
      obtain ⟨a, ha⟩ := ih h
      exact ⟨a, List.mem_cons_of_mem _ ha⟩

theorem amount_eq_zero (h : ∀ x ∈ xs, x.1 ≠ k) : amount k xs = 0 := by
  rw [amount, List.filter_eq_nil_iff.2 fun x hx => by simpa using h x hx, total_nil]

theorem sum_amount {ks : List κ} (hnd : ks.Nodup) (h : ∀ x ∈ xs, x.1 ∈ ks) :
    (ks.map fun k => amount k xs).sum = total xs := by
  induction xs with
  | nil => simp
  | cons x xs ih =>
    have hone : (ks.map fun k => if x.1 = k then x.2 else 0).sum = x.2 := by
      rw [List.sum_map_eq_nsmul_single x.1 _ fun k hk _ => if_neg (Ne.symm hk), if_pos rfl,
        List.count_eq_one_of_mem hnd (h x List.mem_cons_self), one_nsmul]
    simp only [amount_cons]
    rw [List.sum_map_add, hone, ih fun y hy => h y (List.mem_cons_of_mem x hy), total_cons]

end Amount

theorem filter_ne_self [DecidableEq κ] {k : κ} (h : k ∉ xs.map Prod.fst) :
    (xs.filter fun x => x.1 ≠ k) = xs := by
  rw [List.filter_eq_self]
  intro x hx
  simp only [ne_eq, decide_not, Bool.not_eq_eq_eq_not, Bool.not_true, decide_eq_false_iff_not]
  rintro rfl
  exact h (List.mem_map_of_mem hx)

theorem total_filter_ne [DecidableEq κ] {k : κ} {a : ℕ} (hnd : (xs.map Prod.fst).Nodup)
    (h : (k, a) ∈ xs) : total (xs.filter fun x => x.1 ≠ k) + a = total xs := by
  induction xs with
  | nil => cases h
  | cons x xs ih =>
    obtain ⟨hx, hxs⟩ := List.nodup_cons.1 hnd
    rcases List.mem_cons.1 h with rfl | h
    · rw [List.filter_cons_of_neg (by simp), filter_ne_self hx, total_cons, Nat.add_comm]
    · have hne : x.1 ≠ k := fun he => hx (he ▸ List.mem_map_of_mem h)
      rw [List.filter_cons_of_pos (by simpa using hne), total_cons, total_cons, ← ih hxs h,
        Nat.add_assoc]

end Greedy
