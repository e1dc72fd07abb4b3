import Mathlib

namespace Buckets
set_option autoImplicit true

variable {ι κ α σ : Type*} [DecidableEq ι] {index : κ → ι} {name : α → κ} {apply : α → σ → σ}
  {cs ds : List α} {table : ι → σ} {i : ι} {k : κ}

/-- Operations on a table that keeps one entry for each index, not for each name. -/
def run (index : κ → ι) (name : α → κ) (apply : α → σ → σ) (cs : List α) (table : ι → σ) : ι → σ :=
  cs.foldl (fun t c => Function.update t (index (name c)) (apply c (t (index (name c))))) table

theorem run_apply : run index name apply cs table i =
    (cs.filter fun c => index (name c) = i).foldl (fun s c => apply c s) (table i) := by
  induction cs generalizing table with
  | nil => rfl
  | cons c cs ih =>
    rw [run, List.foldl_cons, ← run, ih, List.filter_cons]
    by_cases hi : index (name c) = i
    · subst hi
      simp
    · rw [Function.update_of_ne (Ne.symm hi), if_neg (by simpa using hi)]

/-- Operations on one name leave the entries of the other indices alone. -/
theorem run_eq_of_filter_eq [DecidableEq κ] (hi : index k ≠ i)
    (h : (cs.filter fun c => name c ≠ k) = ds.filter fun c => name c ≠ k) :
    run index name apply cs table i = run index name apply ds table i := by
  have hfilter (xs : List α) : (xs.filter fun c => index (name c) = i) =
      (xs.filter fun c => name c ≠ k).filter fun c => index (name c) = i := by
    rw [List.filter_filter]
    refine List.filter_congr fun c _ => ?_
    by_cases hc : name c = k
    · simp [hc, hi]
    · simp [hc]
  rw [run_apply, run_apply, hfilter cs, hfilter ds, h]

end Buckets
