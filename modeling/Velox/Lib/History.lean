import Mathlib

namespace History
set_option autoImplicit true

/-- A condition on every entry of a list, given the entries before it. -/
def Each (P : List α → α → Prop) (xs : List α) : Prop := ∀ pre x, pre ++ [x] <+: xs → P pre x

/-- A property of a list and of every list it grew from. -/
def Always (Q : List α → Prop) (xs : List α) : Prop := ∀ pre, pre <+: xs → Q pre

variable {α : Type*} {P D : List α → α → Prop} {Q : List α → Prop} {xs : List α} {x : α}

theorem each_nil : Each P [] := fun pre x h => by
  have hlen := h.length_le
  rw [List.length_append, List.length_singleton, List.length_nil] at hlen
  omega

theorem each_snoc : Each P (xs ++ [x]) ↔ Each P xs ∧ P xs x := by
  constructor
  · exact fun h => ⟨fun pre y hpre => h pre y (hpre.trans (List.prefix_append _ _)),
      h xs x (List.prefix_refl _)⟩
  · rintro ⟨hxs, hx⟩ pre y hpre
    rcases List.prefix_concat_iff.1 hpre with he | hpre
    · obtain ⟨hp, hyx⟩ := List.append_inj' he rfl
      rw [hp, List.singleton_inj.1 hyx]
      exact hx
    · exact hxs pre y hpre

theorem Each.of_prefix {ys : List α} (h : Each P xs) (hys : ys <+: xs) : Each P ys :=
  fun pre x hpre => h pre x (hpre.trans hys)

theorem each_append {ys : List α} :
    Each P (xs ++ ys) ↔ Each P xs ∧ Each (fun pre y => P (xs ++ pre) y) ys := by
  induction ys using List.reverseRecOn with
  | nil => rw [List.append_nil, and_iff_left each_nil]
  | append_singleton ys y ih => rw [← List.append_assoc, each_snoc, each_snoc, ih, and_assoc]

theorem each_congr {P' : List α → α → Prop} (h : ∀ pre x, pre ++ [x] <+: xs → (P pre x ↔ P' pre x)) :
    Each P xs ↔ Each P' xs :=
  ⟨fun he pre x hpre => (h pre x hpre).1 (he pre x hpre),
    fun he pre x hpre => (h pre x hpre).2 (he pre x hpre)⟩

theorem each_filterMap {β : Type*} {P : List β → β → Prop} {f : α → Option β} :
    Each P (xs.filterMap f) ↔ Each (fun pre x => ∀ y ∈ f x, P (pre.filterMap f) y) xs := by
  induction xs using List.reverseRecOn with
  | nil => exact iff_of_true each_nil each_nil
  | append_singleton xs x ih =>
    rw [each_snoc, List.filterMap_append, ← ih]
    cases hx : f x with
    | none =>
      rw [List.filterMap_cons_none hx, List.filterMap_nil, List.append_nil]
      exact (and_iff_left fun y hy => by cases hy).symm
    | some y =>
      rw [List.filterMap_cons_some hx, List.filterMap_nil, each_snoc]
      exact and_congr_right fun _ => ⟨fun h z hz => by cases hz; exact h, fun h => h y rfl⟩

theorem always_nil : Always Q [] ↔ Q [] := by
  constructor
  · exact fun h => h [] (List.prefix_refl _)
  · intro h pre hpre
    rwa [List.prefix_nil.1 hpre]

theorem always_snoc : Always Q (xs ++ [x]) ↔ Always Q xs ∧ Q (xs ++ [x]) := by
  constructor
  · exact fun h => ⟨fun pre hpre => h pre (hpre.trans (List.prefix_append _ _)),
      h _ (List.prefix_refl _)⟩
  · rintro ⟨hxs, hx⟩ pre hpre
    rcases List.prefix_concat_iff.1 hpre with rfl | hpre
    · exact hx
    · exact hxs pre hpre

theorem Always.last (h : Always Q xs) : Q xs := h xs (List.prefix_refl _)

/-- A property that each entry keeps exactly when it meets a condition holds all along exactly when
every entry meets the condition. -/
theorem always_iff_each (hnil : Q [])
    (hstep : ∀ xs x, Each D (xs ++ [x]) → Q xs → (Q (xs ++ [x]) ↔ P xs x)) (h : Each D xs) :
    Always Q xs ↔ Each P xs := by
  induction xs using List.reverseRecOn with
  | nil => exact iff_of_true (always_nil.2 hnil) each_nil
  | append_singleton xs x ih =>
    rw [always_snoc, each_snoc, ih (each_snoc.1 h).1]
    refine and_congr_right fun hxs => hstep xs x h ?_
    exact ((ih (each_snoc.1 h).1).2 hxs).last

end History
