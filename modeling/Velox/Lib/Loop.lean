import Mathlib

namespace Loop
set_option autoImplicit true

/-- A loop run for at most the given number of turns. A turn has no result (`none`), leaves the
loop (`.inl`) or goes round again (`.inr`). -/
def run (body : σ → Option (σ ⊕ σ)) : ℕ → σ → Option σ
  | 0, _ => none
  | n + 1, s =>
    match body s with
    | none => none
    | some (.inl t) => some t
    | some (.inr t) => run body n t

variable {σ : Type*} {body : σ → Option (σ ⊕ σ)} {I P : σ → Prop} {μ : σ → ℕ} {s t : σ}

theorem run_leave (h : body s = some (.inl t)) (n : ℕ) : run body (n + 1) s = some t := by
  simp only [run, h]

theorem run_again (h : body s = some (.inr t)) (n : ℕ) :
    run body (n + 1) s = run body n t := by
  simp only [run, h]

/-- The total rule: an invariant and a measure that every further turn decreases give a result
that meets the postcondition. -/
theorem run_total (body : σ → Option (σ ⊕ σ))
    (hbody : ∀ s, I s → ∃ r, body s = some r ∧ (∀ t, r = .inl t → P t) ∧
      ∀ t, r = .inr t → I t ∧ μ t < μ s)
    (hs : I s) {n : ℕ} (hn : μ s < n) : ∃ t, run body n s = some t ∧ P t := by
  induction n generalizing s with
  | zero => cases hn
  | succ n ih =>
    obtain ⟨r, hr, hl, ha⟩ := hbody s hs
    cases r with
    | inl t => exact ⟨t, run_leave hr n, hl t rfl⟩
    | inr t =>
      obtain ⟨ht, hlt⟩ := ha t rfl
      rw [run_again hr]
      exact ih ht (by omega)

/-- The partial rule: whatever the budget, a result of the loop meets the postcondition. -/
theorem run_sound (body : σ → Option (σ ⊕ σ))
    (hbody : ∀ s, I s → ∀ r, body s = some r → (∀ t, r = .inl t → P t) ∧
      ∀ t, r = .inr t → I t)
    (hs : I s) {n : ℕ} (h : run body n s = some t) : P t := by
  induction n generalizing s with
  | zero => cases h
  | succ n ih =>
    simp only [run] at h
    cases hb : body s with
    | none => simp only [hb] at h; cases h
    | some r =>
      obtain ⟨hl, ha⟩ := hbody s hs r hb
      cases r with
      | inl u =>
        simp only [hb, Option.some.injEq] at h
        exact h ▸ hl u rfl
      | inr u =>
        simp only [hb] at h
        exact ih (ha u rfl) h

theorem run_keeps (hbody : ∀ s r, I s → body s = some r → Sum.elim I I r) (hs : I s) {n : ℕ}
    (h : run body n s = some t) : I t :=
  run_sound body (fun s hi r hr =>
    ⟨fun t he => by rw [he] at hr; exact hbody s _ hi hr,
      fun t he => by rw [he] at hr; exact hbody s _ hi hr⟩) hs h

/-- Where every further turn decreases a measure, budgets above it do not matter. -/
theorem run_budget (hdec : ∀ s t, body s = some (.inr t) → μ t < μ s) {n m : ℕ} (hn : μ s < n)
    (hm : μ s < m) : run body n s = run body m s := by
  induction n generalizing s m with
  | zero => cases hn
  | succ n ih =>
    cases m with
    | zero => cases hm
    | succ m =>
      rw [run, run]
      cases hb : body s with
      | none => rfl
      | some r =>
        cases r with
        | inl t => rfl
        | inr t =>
          have hlt := hdec s t hb
          exact ih (by omega) (by omega)

def Visits (body : σ → Option (σ ⊕ σ)) (s t : σ) : Prop :=
  Relation.ReflTransGen (fun u v => body u = some (.inr v)) s t

theorem Visits.keeps (h : Visits body s t) (hkeep : ∀ u v, I u → body u = some (.inr v) → I v)
    (hs : I s) : I t := by
  induction h with
  | refl => exact hs
  | tail _ hr ih => exact hkeep _ _ ih hr

/-- A map that commutes with every turn commutes with the loop. -/
theorem run_map {body' : τ → Option (τ ⊕ τ)} {m : σ → τ}
    (hkeep : ∀ s r, I s → body s = some r → Sum.elim I I r)
    (hmap : ∀ s, I s → body' (m s) = (body s).map (Sum.map m m)) (hs : I s) (n : ℕ) :
    run body' n (m s) = (run body n s).map m := by
  induction n generalizing s with
  | zero => rfl
  | succ n ih =>
    rw [run, run, hmap s hs]
    cases hb : body s with
    | none => rfl
    | some r =>
      cases r with
      | inl t => rfl
      | inr t => exact ih (hkeep s _ hs hb)

theorem run_congr {body' : σ → Option (σ ⊕ σ)}
    (hkeep : ∀ s r, I s → body s = some r → Sum.elim I I r)
    (heq : ∀ s, I s → body' s = body s) (hs : I s) (n : ℕ) : run body' n s = run body n s := by
  have hmap : ∀ s, I s → body' (id s) = (body s).map (Sum.map id id) := fun s hi => by
    rw [id, heq s hi, Sum.map_id_id, Option.map_id, id]
  rw [← id_eq s, run_map hkeep hmap hs, Option.map_id, id, id]

/-- A loop whose every turn from an invariant goes round again never ends. -/
theorem run_diverges (hbody : ∀ s, I s → ∃ t, body s = some (.inr t) ∧ I t)
    (hs : I s) (n : ℕ) : run body n s = none := by
  induction n generalizing s with
  | zero => rfl
  | succ n ih =>
    obtain ⟨t, ht, hi⟩ := hbody s hs
    rw [run_again ht]
    exact ih hi

end Loop
