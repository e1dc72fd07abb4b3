import Velox.Lib.Runs

set_option autoImplicit true

namespace Leases

/-- Every lease has one turn less to go, and those that have none left end. -/
def expire (ls : List ℤ) : List ℤ := (ls.map (· - 1)).filter (0 < ·)

/-- A turn: leases expire, and new ones of some least life are granted within the capacity. -/
structure Turn (capacity : ℕ) (life : ℤ) (ls : List ℤ) (granted : ℕ) (ls' : List ℤ) : Prop where
  grants : ∃ new, ls' = expire ls ++ new ∧ new.length = granted ∧ ∀ l ∈ new, life ≤ l
  fits : granted = 0 ∨ ls'.length ≤ capacity

variable {capacity granted k : ℕ} {life : ℤ} {ls ls' : List ℤ}

theorem length_expire_le : (expire ls).length ≤ ls.length := by
  have hle := List.length_filter_le (fun l : ℤ => decide (0 < l)) (ls.map (· - 1))
  rwa [List.length_map] at hle

theorem countP_expire {n : ℤ} (hn : 0 ≤ n) :
    (expire ls).countP (fun l => n < l) = ls.countP fun l => n + 1 < l := by
  rw [expire, List.countP_filter, List.countP_map]
  apply List.countP_congr
  intro l _
  simp only [Function.comp_apply, Bool.and_eq_true, decide_eq_true_eq]
  omega

namespace Turn

theorem length_le (h : Turn capacity life ls granted ls') (hls : ls.length ≤ capacity) :
    ls'.length ≤ capacity := by
  obtain ⟨⟨new, rfl, hnew, -⟩, hzero | hle⟩ := h
  · rw [hzero, List.length_eq_zero_iff] at hnew
    rw [hnew, List.append_nil]
    exact length_expire_le.trans hls
  · exact hle

/-- The leases of the last turns are still there: none of them can have ended. -/
theorem countP_le (h : Turn capacity life ls granted ls') (hk : (k : ℤ) < life) :
    ls.countP (fun l => life - k < l) + granted ≤
      ls'.countP fun l => life - (k + 1 : ℕ) < l := by
  obtain ⟨⟨new, rfl, hnew, hlife⟩, -⟩ := h
  have hold : (expire ls).countP (fun l => life - (k + 1 : ℕ) < l) =
      ls.countP fun l => life - (k + 1 : ℕ) + 1 < l := countP_expire (by push_cast; omega)
  have heq : life - (k + 1 : ℕ) + 1 = life - k := by push_cast; ring
  rw [heq] at hold
  have hall : new.countP (fun l => decide (life - (k + 1 : ℕ) < l)) = new.length := by
    rw [List.countP_eq_length]
    intro l hl
    have hle := hlife l hl
    apply decide_eq_true
    push_cast
    omega
  rw [List.countP_append, hold, hall, hnew]

end Turn

section Machine
variable {τ ρ ω : Type*} {next : τ → ρ → τ × ω} (leases : τ → List ℤ) {count : ω → ℕ}
  {I : τ → Prop} {u : τ}

theorem held_le (hturn : ∀ u r, I u → I (next u r).1 ∧
      Turn capacity life (leases u) (count (next u r).2) (leases (next u r).1))
    (hu : I u) (hlen : (leases u).length ≤ capacity) (rs : List ρ) :
    I (Runs.transduce next u rs).1 ∧
      (leases (Runs.transduce next u rs).1).length ≤ capacity := by
  induction rs generalizing u with
  | nil => exact ⟨hu, hlen⟩
  | cons r rs ih =>
    obtain ⟨hI, ht⟩ := hturn u r hu
    exact ih hI (ht.length_le hlen)

theorem granted_le_countP (hturn : ∀ u r, I u → I (next u r).1 ∧
      Turn capacity life (leases u) (count (next u r).2) (leases (next u r).1))
    (hu : I u) (rs : List ρ) (hrs : (rs.length : ℤ) ≤ life) :
    I (Runs.transduce next u rs).1 ∧
      ((Runs.transduce next u rs).2.map count).sum ≤
        (leases (Runs.transduce next u rs).1).countP fun l => life - rs.length < l := by
  induction rs using List.reverseRecOn with
  | nil => exact ⟨hu, Nat.zero_le _⟩
  | append_singleton rs r ih =>
    rw [List.length_append, List.length_singleton] at hrs
    push_cast at hrs
    obtain ⟨hI, hle⟩ := ih (by omega)
    obtain ⟨hI', ht⟩ := hturn (Runs.transduce next u rs).1 r hI
    rw [Runs.transduce_snoc]
    refine ⟨hI', ?_⟩
    have hstep := ht.countP_le (k := rs.length) (by omega)
    rw [List.map_append, List.sum_append, List.map_singleton, List.sum_singleton,
      List.length_append, List.length_singleton]
    exact (Nat.add_le_add_right hle _).trans hstep

/-- No window as long as the life of a lease sees more grants than the capacity. -/
theorem granted_le (hturn : ∀ u r, I u → I (next u r).1 ∧
      Turn capacity life (leases u) (count (next u r).2) (leases (next u r).1))
    (hu : I u) (hlen : (leases u).length ≤ capacity) (rs : List ρ)
    (hrs : (rs.length : ℤ) ≤ life) :
    ((Runs.transduce next u rs).2.map count).sum ≤ capacity :=
  (granted_le_countP leases hturn hu rs hrs).2.trans
    (List.countP_le_length.trans (held_le leases hturn hu hlen rs).2)

end Machine

end Leases
