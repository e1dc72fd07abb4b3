import Mathlib

set_option autoImplicit true

/-- What stands before and after the first separator of a list, if it has one. -/
def cut [DecidableEq α] (sep : α) : List α → Option (List α × List α)
  | [] => none
  | x :: xs => if x = sep then some ([], xs) else (cut sep xs).map fun y => (x :: y.1, y.2)

namespace Cut
variable {α : Type*} [DecidableEq α] {sep : α} {xs ys zs xs' ys' : List α}

theorem cut_append (h : sep ∉ xs) : cut sep (xs ++ sep :: ys) = some (xs, ys) := by
  induction xs with
  | nil => rw [List.nil_append, cut, if_pos rfl]
  | cons x xs ih =>
    obtain ⟨hx, hxs⟩ := not_or.1 (List.mem_cons.not.1 h)
    rw [List.cons_append, cut, if_neg (Ne.symm hx), ih hxs]
    rfl

theorem eq_of_cut (h : cut sep xs = some (ys, zs)) : xs = ys ++ sep :: zs ∧ sep ∉ ys := by
  induction xs generalizing ys with
  | nil => cases h
  | cons x xs ih =>
    rw [cut] at h
    split_ifs at h with hx
    · cases h
      exact ⟨by rw [hx]; rfl, List.not_mem_nil⟩
    · obtain ⟨⟨ys', zs'⟩, hc, he⟩ := Option.map_eq_some_iff.1 h
      cases he
      obtain ⟨rfl, hys⟩ := ih hc
      exact ⟨rfl, fun hm => (List.mem_cons.1 hm).elim (fun he => hx he.symm) hys⟩

theorem not_mem_of_cut (h : cut sep xs = none) : sep ∉ xs := by
  intro hm
  obtain ⟨ys, zs, rfl, hys⟩ := List.eq_append_cons_of_mem hm
  rw [cut_append hys] at h
  cases h

theorem append_inj (hxs : sep ∉ xs) (hxs' : sep ∉ xs')
    (h : xs ++ sep :: ys = xs' ++ sep :: ys') : xs = xs' ∧ ys = ys' := by
  have hcut : cut sep (xs ++ sep :: ys) = some (xs, ys) := cut_append hxs
  rw [h, cut_append hxs'] at hcut
  obtain ⟨h₁, h₂⟩ := Prod.mk.inj (Option.some.inj hcut)
  exact ⟨h₁.symm, h₂.symm⟩

end Cut
