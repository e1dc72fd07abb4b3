import Mathlib

set_option autoImplicit true

/-- The first element of a list, and no other, is one that lists start with. -/
def Led (start : α → Prop) (xs : List α) : Prop :=
  ∃ x rest, xs = x :: rest ∧ start x ∧ ∀ y ∈ rest, ¬ start y

/-- Where the word of an element ends can be seen from the word. -/
structure Delimited (word : α → List β) (T : Set α) : Prop where
  ne_nil : ∀ x ∈ T, word x ≠ []
  append_inj : ∀ x ∈ T, ∀ y ∈ T, ∀ us vs, word x ++ us = word y ++ vs → x = y ∧ us = vs

namespace Codes
open InformationTheory (UniquelyDecodable)

variable {α β : Type*} {S : Set (List α)} {T : Set α} {word : α → List β} {start : α → Prop}
  {xs ys us vs : List α} {xss : List (List α)}

theorem start_head (h : ∀ xs ∈ xss, Led start xs) : ∀ x ∈ xss.flatten.head?, start x := by
  cases xss with
  | nil => simp
  | cons xs xss =>
    obtain ⟨x, rest, rfl, hx, -⟩ := h xs List.mem_cons_self
    intro y hy
    obtain rfl := Option.some.inj hy
    exact hx

theorem append_inj_of_start (hxs : ∀ x ∈ xs, ¬ start x) (hys : ∀ y ∈ ys, ¬ start y)
    (hus : ∀ u ∈ us.head?, start u) (hvs : ∀ v ∈ vs.head?, start v) (h : xs ++ us = ys ++ vs) :
    xs = ys ∧ us = vs := by
  induction xs generalizing ys with
  | nil =>
    cases ys with
    | nil => exact ⟨rfl, h⟩
    | cons y ys =>
      have hus' : us = y :: (ys ++ vs) := h
      exact absurd (hus y (by rw [hus']; rfl)) (hys y List.mem_cons_self)
  | cons x xs ih =>
    cases ys with
    | nil =>
      have hvs' : x :: (xs ++ us) = vs := h
      exact absurd (hvs x (by rw [← hvs']; rfl)) (hxs x List.mem_cons_self)
    | cons y ys =>
      obtain ⟨rfl, hrest⟩ := List.cons.inj h
      obtain ⟨rfl, rfl⟩ := ih (fun z hz => hxs z (List.mem_cons_of_mem _ hz))
        (fun z hz => hys z (List.mem_cons_of_mem _ hz)) hrest
      exact ⟨rfl, rfl⟩

/-- Lists that show where they start can be told apart when one stands after the other. -/
theorem uniquelyDecodable_led (start : α → Prop) : UniquelyDecodable {xs | Led start xs} := by
  intro xss yss hxss hyss h
  induction xss generalizing yss with
  | nil =>
    cases yss with
    | nil => rfl
    | cons ys yss =>
      obtain ⟨y, rest, rfl, -⟩ := hyss ys List.mem_cons_self
      cases h
  | cons xs xss ih =>
    obtain ⟨x, rest, rfl, -, hrest⟩ := hxss xs List.mem_cons_self
    cases yss with
    | nil => cases h
    | cons ys yss =>
      obtain ⟨y, rest', rfl, -, hrest'⟩ := hyss ys List.mem_cons_self
      have hxss' : ∀ xs ∈ xss, Led start xs := fun zs hz => hxss zs (List.mem_cons_of_mem _ hz)
      have hyss' : ∀ ys ∈ yss, Led start ys := fun zs hz => hyss zs (List.mem_cons_of_mem _ hz)
      rw [List.flatten_cons, List.flatten_cons, List.cons_append, List.cons_append] at h
      obtain ⟨rfl, htail⟩ := List.cons.inj h
      obtain ⟨rfl, hflat⟩ := append_inj_of_start hrest hrest' (start_head hxss')
        (start_head hyss') htail
      rw [ih yss hxss' hyss' hflat]

theorem flatMap_inj (hw : Delimited word T) (hxs : ∀ x ∈ xs, x ∈ T) (hys : ∀ y ∈ ys, y ∈ T)
    (h : xs.flatMap word = ys.flatMap word) : xs = ys := by
  induction xs generalizing ys with
  | nil =>
    cases ys with
    | nil => rfl
    | cons y ys =>
      have hnil := List.append_eq_nil_iff.1 (h.symm.trans List.flatMap_nil)
      exact absurd hnil.1 (hw.ne_nil y (hys y List.mem_cons_self))
  | cons x xs ih =>
    cases ys with
    | nil =>
      have hnil := List.append_eq_nil_iff.1 (h.trans List.flatMap_nil)
      exact absurd hnil.1 (hw.ne_nil x (hxs x List.mem_cons_self))
    | cons y ys =>
      obtain ⟨rfl, hrest⟩ := hw.append_inj x (hxs x List.mem_cons_self) y
        (hys y List.mem_cons_self) _ _ h
      rw [ih (fun z hz => hxs z (List.mem_cons_of_mem _ hz))
        (fun z hz => hys z (List.mem_cons_of_mem _ hz)) hrest]

theorem exists_map_of_image {f : List α → List β} {wss : List (List β)}
    (h : ∀ ws ∈ wss, ws ∈ f '' S) :
    ∃ xss : List (List α), (∀ xs ∈ xss, xs ∈ S) ∧ xss.map f = wss := by
  induction wss with
  | nil => exact ⟨[], by simp, rfl⟩
  | cons ws wss ih =>
    obtain ⟨xs, hxs, rfl⟩ := h ws List.mem_cons_self
    obtain ⟨xss, hxss, rfl⟩ := ih fun zs hz => h zs (List.mem_cons_of_mem _ hz)
    exact ⟨xs :: xss, List.forall_mem_cons.2 ⟨hxs, hxss⟩, rfl⟩

/-- Spelling the elements of a code with words that show their ends leaves it uniquely
decodable. -/
theorem uniquelyDecodable_flatMap (hw : Delimited word T) (hS : UniquelyDecodable S)
    (hST : ∀ xs ∈ S, ∀ x ∈ xs, x ∈ T) : UniquelyDecodable ((fun xs => xs.flatMap word) '' S) := by
  intro wss wss' hwss hwss' h
  obtain ⟨xss, hxss, rfl⟩ := exists_map_of_image hwss
  obtain ⟨yss, hyss, rfl⟩ := exists_map_of_image hwss'
  have hflat (zss : List (List α)) :
      (zss.map fun xs => xs.flatMap word).flatten = zss.flatten.flatMap word := by
    induction zss with
    | nil => rfl
    | cons zs zss ih =>
      rw [List.map_cons, List.flatten_cons, ih, List.flatten_cons, List.flatMap_append]
  have hmem {zss : List (List α)} (hzss : ∀ zs ∈ zss, zs ∈ S) : ∀ z ∈ zss.flatten, z ∈ T := by
    intro z hz
    obtain ⟨zs, hzs, hz⟩ := List.mem_flatten.1 hz
    exact hST zs (hzss zs hzs) z hz
  rw [hflat, hflat] at h
  rw [hS xss yss hxss hyss (flatMap_inj hw (hmem hxss) (hmem hyss) h)]

end Codes
