import Mathlib

namespace Ring
set_option autoImplicit true

variable {α : Type*} {n : ℕ} {buffer : Fin n → α} {head tail i : Fin n}

/-- Number of cells from the head up to the tail of a circular buffer. -/
def used (head tail : Fin n) : ℕ := (tail - head).val

theorem used_eq (head tail : Fin n) :
    used head tail = if head.val ≤ tail.val then tail.val - head.val
      else n + tail.val - head.val := by
  have hh := head.isLt
  have ht := tail.isLt
  rw [used, Fin.val_sub]
  split
  · rw [show n - head.val + tail.val = (tail.val - head.val) + n by omega, Nat.add_mod_right]
    exact Nat.mod_eq_of_lt (by omega)
  · rw [show n - head.val + tail.val = n + tail.val - head.val by omega]
    exact Nat.mod_eq_of_lt (by omega)

theorem used_lt (head tail : Fin n) : used head tail < n := (tail - head).isLt

@[simp] theorem used_self (head : Fin n) : used head head = 0 := by
  rw [used_eq, if_pos le_rfl, Nat.sub_self]

theorem used_eq_zero_iff : used head tail = 0 ↔ head = tail := by
  have hh := head.isLt
  have ht := tail.isLt
  rw [used_eq, Fin.ext_iff]
  split <;> omega

variable [NeZero n]

/-- The cells from an index on, going round at the end of the buffer. -/
def cells (buffer : Fin n → α) : Fin n → ℕ → List α
  | _, 0 => []
  | i, k + 1 => buffer i :: cells buffer (i + 1) k

/-- The contents of a circular buffer, oldest first. -/
def window (buffer : Fin n → α) (head tail : Fin n) : List α :=
  cells buffer head (used head tail)

theorem val_add_one_eq (i : Fin n) : (i + 1).val = if i.val + 1 = n then 0 else i.val + 1 := by
  have hi := i.isLt
  rw [Fin.val_add, Fin.val_one', Nat.add_mod_mod]
  split
  · simp only [*, Nat.mod_self]
  · exact Nat.mod_eq_of_lt (by omega)

theorem used_next (h : head ≠ tail) : used head tail = used (head + 1) tail + 1 := by
  have hh := head.isLt
  have ht := tail.isLt
  have hne : head.val ≠ tail.val := fun he => h (Fin.ext he)
  rw [used_eq, used_eq, val_add_one_eq]
  split_ifs <;> omega

theorem used_grow (h : used head tail + 1 < n) : used head (tail + 1) = used head tail + 1 := by
  have hh := head.isLt
  have ht := tail.isLt
  rw [used_eq] at h
  rw [used_eq, used_eq, val_add_one_eq]
  split_ifs at * <;> omega

theorem used_wrap (h : used head tail + 1 = n) : used head (tail + 1) = 0 := by
  have hh := head.isLt
  have ht := tail.isLt
  rw [used_eq] at h
  rw [used_eq, val_add_one_eq]
  split_ifs at * <;> omega

@[simp] theorem length_cells (buffer : Fin n → α) (i : Fin n) (k : ℕ) :
    (cells buffer i k).length = k := by
  induction k generalizing i with
  | zero => rfl
  | succ k ih => simp only [cells, List.length_cons, ih]

@[simp] theorem length_window (buffer : Fin n → α) (head tail : Fin n) :
    (window buffer head tail).length = used head tail := length_cells _ _ _

@[simp] theorem window_self (buffer : Fin n → α) (head : Fin n) : window buffer head head = [] := by
  simp only [window, used_self, cells]

theorem window_cons (h : head ≠ tail) :
    window buffer head tail = buffer head :: window buffer (head + 1) tail := by
  rw [window, used_next h]
  rfl

theorem cells_update {k : ℕ} (h : k ≤ used head i) (x : α) :
    cells (Function.update buffer i x) head k = cells buffer head k := by
  induction k generalizing head with
  | zero => rfl
  | succ k ih =>
    have hne : head ≠ i := by
      rintro rfl
      rw [used_self] at h
      omega
    rw [used_next hne] at h
    simp only [cells, Function.update_of_ne hne, ih (Nat.le_of_succ_le_succ h)]

theorem cells_snoc (buffer : Fin n → α) (k : ℕ) (h : used head i = k) :
    cells buffer head (k + 1) = cells buffer head k ++ [buffer i] := by
  induction k generalizing head with
  | zero =>
    rw [used_eq_zero_iff] at h
    subst h
    rfl
  | succ k ih =>
    have hne : head ≠ i := by
      rintro rfl
      rw [used_self] at h
      omega
    rw [used_next hne] at h
    rw [cells, ih (Nat.succ.inj h)]
    rfl

theorem window_pop (h : head ≠ tail) (x : α) :
    window (Function.update buffer head x) (head + 1) tail = window buffer (head + 1) tail := by
  apply cells_update
  have hlt := used_lt head tail
  have hh := head.isLt
  rw [used_next h] at hlt
  rw [used_eq, used_eq, val_add_one_eq] at *
  split_ifs at * <;> omega

theorem window_push (h : used head tail + 1 < n) (x : α) :
    window (Function.update buffer tail x) head (tail + 1) = window buffer head tail ++ [x] := by
  rw [window, used_grow h, cells_snoc _ _ rfl, cells_update le_rfl, Function.update_self]
  rfl

/-- The push that fills the last cell makes the whole contents unreachable. -/
theorem window_push_full (h : used head tail + 1 = n) (buffer : Fin n → α) :
    window buffer head (tail + 1) = [] := by
  rw [window, used_wrap h]
  rfl

theorem mem_cells {k : ℕ} (h : used head i < k) (buffer : Fin n → α) :
    buffer i ∈ cells buffer head k := by
  induction k generalizing head with
  | zero => cases h
  | succ k ih =>
    by_cases he : head = i
    · rw [he]
      exact List.mem_cons_self
    · rw [used_next he] at h
      exact List.mem_cons_of_mem _ (ih (Nat.lt_of_succ_lt_succ h))

omit [NeZero n] in
theorem used_inj (h : used head i = used head tail) : i = tail := by
  have hi := i.isLt
  have hh := head.isLt
  have ht := tail.isLt
  rw [used_eq, used_eq] at h
  rw [Fin.ext_iff]
  split_ifs at h <;> omega

end Ring
