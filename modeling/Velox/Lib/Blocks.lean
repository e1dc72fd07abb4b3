import Velox.Lib.History

set_option autoImplicit true

/-- Blocks of `d` equal entries, one after the other, and fewer than `d` entries at the end. -/
inductive Blocks (d : ℕ) : List α → Prop
  | rest (h : xs.length < d) : Blocks d xs
  | block (x : α) (h : Blocks d xs) : Blocks d (List.replicate d x ++ xs)

namespace Blocks
variable {α : Type*} [BEq α] [LawfulBEq α] {d : ℕ} {xs : List α} {x : α}

/-- Wherever an entry stands, `d` divides its number among all entries exactly when it divides its
number among the entries equal to it. -/
def InStep (d : ℕ) (xs : List α) : Prop :=
  History.Each (fun pre x => d ∣ pre.length + 1 ↔ d ∣ pre.count x + 1) xs

omit [LawfulBEq α] in
theorem inStep_of_length_lt (h : xs.length < d) : InStep d xs := by
  intro pre y hpre
  have hle := hpre.length_le
  rw [List.length_append, List.length_singleton] at hle
  have hcount : pre.count y ≤ pre.length := List.count_le_length
  exact iff_of_false (Nat.not_dvd_of_pos_of_lt (Nat.succ_pos _) (by omega))
    (Nat.not_dvd_of_pos_of_lt (Nat.succ_pos _) (by omega))

theorem inStep_of_eq (h : ∀ y ∈ xs, y = x) : InStep d xs := by
  intro pre y hpre
  have hy : y = x := h y (hpre.subset (List.mem_append_right _ (List.mem_singleton_self y)))
  have hcount : pre.count y = pre.length := by
    rw [List.count_eq_length]
    intro z hz
    rw [hy, h z (hpre.subset (List.mem_append_left _ hz))]
  rw [hcount]

theorem inStep_block : InStep d (List.replicate d x ++ xs) ↔ InStep d xs := by
  have hblock : InStep d (List.replicate d x) := inStep_of_eq fun y hy => List.eq_of_mem_replicate hy
  refine History.each_append.trans ((and_iff_right hblock).trans (History.each_congr ?_))
  intro pre y _
  rw [List.length_append, List.length_replicate, List.count_append, List.count_replicate,
    Nat.add_assoc, Nat.dvd_add_right (Nat.dvd_refl d)]
  split
  · rw [Nat.add_assoc, Nat.dvd_add_right (Nat.dvd_refl d)]
  · rw [Nat.zero_add]

theorem eq_replicate_of_inStep (h : InStep d xs) (hlen : xs.length = d) (hd : 0 < d) :
    ∃ x, xs = List.replicate d x := by
  rcases List.eq_nil_or_concat' xs with rfl | ⟨ys, x, rfl⟩
  · exact absurd hlen hd.ne
  · rw [List.length_append, List.length_singleton] at hlen
    have hlast := (History.each_snoc.1 h).2
    rw [hlen] at hlast
    have hle : d ≤ ys.count x + 1 := Nat.le_of_dvd (Nat.succ_pos _) (hlast.1 (Nat.dvd_refl d))
    have hcount : ys.count x = ys.length := by
      have hcount_le : ys.count x ≤ ys.length := List.count_le_length
      omega
    refine ⟨x, List.eq_replicate_iff.2 ⟨?_, ?_⟩⟩
    · rw [List.length_append, List.length_singleton, hlen]
    · intro y hy
      rcases List.mem_append.1 hy with hy | hy
      · exact (List.count_eq_length.1 hcount y hy).symm
      · exact List.mem_singleton.1 hy

theorem inStep_iff (hd : 0 < d) : InStep d xs ↔ Blocks d xs := by
  constructor
  · intro h
    induction hn : xs.length using Nat.strong_induction_on generalizing xs with
    | h n ih =>
      subst hn
      by_cases hlt : xs.length < d
      · exact .rest hlt
      · have htake : (xs.take d).length = d := by
          rw [List.length_take]
          omega
        have hstep := h
        rw [← List.take_append_drop d xs, InStep, History.each_append] at hstep
        obtain ⟨x, hx⟩ := eq_replicate_of_inStep hstep.1 htake hd
        rw [← List.take_append_drop d xs, hx] at h ⊢
        refine .block x (ih _ ?_ (inStep_block.1 h) rfl)
        rw [List.length_drop]
        omega
  · intro h
    induction h with
    | rest h => exact inStep_of_length_lt h
    | block x _ ih => exact inStep_block.2 ih

end Blocks
