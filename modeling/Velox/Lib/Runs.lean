import Mathlib

set_option autoImplicit true

/-- The finite runs of a labelled step relation from a state, with the steps they took. -/
inductive Runs (R : σ → α → σ → Prop) (s₀ : σ) : List (σ × α × σ) → σ → Prop
  | nil : Runs R s₀ [] s₀
  | snoc (h : Runs R s₀ ts s) (hr : R s a t) : Runs R s₀ (ts ++ [(s, a, t)]) t

namespace Runs
variable {σ α τ : Type*} {R : σ → α → σ → Prop} {s₀ s : σ} {ts : List (σ × α × σ)}

theorem mono {Q : σ → α → σ → Prop} (hR : ∀ s a t, R s a t → Q s a t) (h : Runs R s₀ ts s) :
    Runs Q s₀ ts s := by
  induction h with
  | nil => exact .nil
  | snoc h hr ih => exact .snoc ih (hR _ _ _ hr)

theorem invariant {I : σ → Prop} (h₀ : I s₀)
    (hstep : ∀ s a t, I s → R s a t → I t) (h : Runs R s₀ ts s) : I s := by
  induction h with
  | nil => exact h₀
  | snoc h hr ih => exact hstep _ _ _ ih hr

/-- An invariant kept by the steps that meet a condition holds after every run of such steps. -/
theorem invariant_of {I : σ → Prop} {C : σ × α × σ → Prop} (h₀ : I s₀)
    (hstep : ∀ s a t, I s → R s a t → C (s, a, t) → I t) (h : Runs R s₀ ts s)
    (hC : ∀ x ∈ ts, C x) : I s := by
  induction h with
  | nil => exact h₀
  | snoc h hr ih =>
    exact hstep _ _ _ (ih fun x hx => hC x (List.mem_append_left _ hx)) hr
      (hC _ (List.mem_append_right _ (List.mem_singleton_self _)))

/-- When the steps that meet a condition keep an invariant and have a property, and any other one
lacks the property, every step of a run has it exactly when every step meets the condition. -/
theorem each_iff {I : σ → Prop} {P C : σ × α × σ → Prop} (h₀ : I s₀)
    (hkeep : ∀ s a t, I s → R s a t → C (s, a, t) → I t ∧ P (s, a, t))
    (hneed : ∀ s a t, I s → R s a t → P (s, a, t) → C (s, a, t)) (h : Runs R s₀ ts s) :
    (∀ x ∈ ts, P x) ↔ ∀ x ∈ ts, C x := by
  have key : ((∀ x ∈ ts, P x) ↔ ∀ x ∈ ts, C x) ∧ ((∀ x ∈ ts, C x) → I s) := by
    induction h with
    | nil => exact ⟨⟨fun _ x hx => by (cases hx), fun _ x hx => by (cases hx)⟩, fun _ => h₀⟩
    | @snoc ts s a t h hr ih =>
      obtain ⟨hiff, hinv⟩ := ih
      simp only [List.forall_mem_append, List.forall_mem_singleton]
      refine ⟨⟨fun ⟨hts, ht⟩ => ?_, fun ⟨hts, ht⟩ => ?_⟩, fun ⟨hts, ht⟩ => ?_⟩
      · exact ⟨hiff.1 hts, hneed _ _ _ (hinv (hiff.1 hts)) hr ht⟩
      · exact ⟨hiff.2 hts, (hkeep _ _ _ (hinv hts) hr ht).2⟩
      · exact (hkeep _ _ _ (hinv hts) hr ht).1
  exact key.1

/-- When the steps that meet a condition are those that keep an invariant, and any other one breaks a
property that the invariant gives, the property holds throughout a run exactly when every step
meets the condition. -/
theorem throughout_iff {I P : σ → Prop} {C : σ × α × σ → Prop} (h₀ : I s₀)
    (hP : ∀ s, I s → P s) (hkeep : ∀ s a t, I s → R s a t → C (s, a, t) → I t)
    (hneed : ∀ s a t, I s → R s a t → P t → C (s, a, t)) (h : Runs R s₀ ts s) :
    (∀ x ∈ ts, P x.2.2) ↔ ∀ x ∈ ts, C x :=
  h.each_iff (P := fun x => P x.2.2) h₀
    (fun s a t hi hr hc => ⟨hkeep s a t hi hr hc, hP t (hkeep s a t hi hr hc)⟩) hneed

theorem trans {us : List (σ × α × σ)} {t : σ} (h : Runs R s₀ ts s) (h' : Runs R s us t) :
    Runs R s₀ (ts ++ us) t := by
  induction h' with
  | nil => rwa [List.append_nil]
  | snoc h' hr ih =>
    rw [← List.append_assoc]
    exact ih.snoc hr

theorem of_mem {a : α} {u t : σ} (h : Runs R s₀ ts s) (hm : (u, a, t) ∈ ts) :
    R u a t ∧ ∃ us, Runs R s₀ us u ∧ ∀ x ∈ us, x ∈ ts := by
  induction h with
  | nil => cases hm
  | snoc h hr ih =>
    rcases List.mem_append.1 hm with hm | hm
    · obtain ⟨hr', us, hus, hsub⟩ := ih hm
      exact ⟨hr', us, hus, fun x hx => List.mem_append_left _ (hsub x hx)⟩
    · rw [List.mem_singleton] at hm
      cases hm
      exact ⟨hr, _, h, fun x hx => List.mem_append_left _ hx⟩

/-- A run whose steps all meet a condition is a run of the steps that meet it. -/
theorem restrict {C : σ → α → σ → Prop} (h : Runs R s₀ ts s)
    (hC : ∀ x ∈ ts, C x.1 x.2.1 x.2.2) : Runs (fun s a t => R s a t ∧ C s a t) s₀ ts s := by
  induction h with
  | nil => exact .nil
  | snoc h hr ih =>
    exact .snoc (ih fun x hx => hC x (List.mem_append_left _ hx))
      ⟨hr, hC _ (List.mem_append_right _ (List.mem_singleton_self _))⟩

/-- Run a function that answers requests over a list of them. -/
def transduce (next : τ → ρ → τ × ω) (u : τ) : List ρ → τ × List ω
  | [] => (u, [])
  | r :: rs => ((transduce next (next u r).1 rs).1,
      (next u r).2 :: (transduce next (next u r).1 rs).2)

theorem transduce_snoc (next : τ → ρ → τ × ω) (u : τ) (rs : List ρ) (r : ρ) :
    transduce next u (rs ++ [r]) =
      ((next (transduce next u rs).1 r).1,
        (transduce next u rs).2 ++ [(next (transduce next u rs).1 r).2]) := by
  induction rs generalizing u with
  | nil => rfl
  | cons r' rs ih =>
    rw [List.cons_append, transduce, ih]
    rfl

/-- Lockstep simulation: when every step is the abstract function's step with the same answer, so
is every run. -/
theorem simulates {ρ ω : Type*} {I : σ → Prop} {abs : σ → τ} {next : τ → ρ → τ × ω} {request : α → ρ}
    {answer : α → ω} (h₀ : I s₀)
    (hstep : ∀ s a t, I s → R s a t →
      I t ∧ next (abs s) (request a) = (abs t, answer a)) (h : Runs R s₀ ts s) :
    transduce next (abs s₀) (ts.map fun x => request x.2.1) =
      (abs s, ts.map fun x => answer x.2.1) := by
  have key : I s ∧ transduce next (abs s₀) (ts.map fun x => request x.2.1) =
      (abs s, ts.map fun x => answer x.2.1) := by
    induction h with
    | nil => exact ⟨h₀, rfl⟩
    | snoc h hr ih =>
      obtain ⟨ht, he⟩ := hstep _ _ _ ih.1 hr
      refine ⟨ht, ?_⟩
      rw [List.map_append, List.map_cons, List.map_nil, transduce_snoc, ih.2, he, List.map_append]
      rfl
  exact key.2

/-- Answer requests with a function that computes steps, as long as it has one. -/
def play (perform : σ → ρ → Option (α × σ)) (s : σ) :
    List ρ → Option (List (σ × α × σ) × σ)
  | [] => some ([], s)
  | r :: rs => (perform s r).bind fun x =>
    (play perform x.2 rs).map fun y => ((s, x.1, x.2) :: y.1, y.2)

theorem append_play {I : σ → Prop} {perform : σ → ρ → Option (α × σ)} {rs : List ρ}
    {us : List (σ × α × σ)} {t : σ} (hs : I s)
    (hp : ∀ s r a t, I s → perform s r = some (a, t) → R s a t ∧ I t) (h : Runs R s₀ ts s)
    (hplay : play perform s rs = some (us, t)) : Runs R s₀ (ts ++ us) t := by
  induction rs generalizing s ts us with
  | nil =>
    obtain ⟨rfl, rfl⟩ := Prod.mk.inj (Option.some.inj hplay)
    rwa [List.append_nil]
  | cons r rs ih =>
    rw [play, Option.bind_eq_some_iff] at hplay
    obtain ⟨⟨a, u⟩, hr, hplay⟩ := hplay
    rw [Option.map_eq_some_iff] at hplay
    obtain ⟨⟨vs, v⟩, hrs, he⟩ := hplay
    obtain ⟨rfl, rfl⟩ := Prod.mk.inj he
    obtain ⟨hstep, hu⟩ := hp _ _ _ _ hs hr
    rw [← List.singleton_append, ← List.append_assoc]
    exact ih hu (h.snoc hstep) hrs

/-- A computed run is a run, if the computed steps are steps while an invariant holds and keep it. -/
theorem exists_of_play_of {I : σ → Prop} {perform : σ → ρ → Option (α × σ)} {rs : List ρ}
    {ok : List (σ × α × σ) → σ → Bool} (h₀ : I s₀)
    (hp : ∀ s r a t, I s → perform s r = some (a, t) → R s a t ∧ I t)
    (h : (play perform s₀ rs).any (fun x => ok x.1 x.2) = true) :
    ∃ ts s, Runs R s₀ ts s ∧ ok ts s = true := by
  rw [Option.any_eq_true] at h
  obtain ⟨⟨ts, s⟩, hrun, hok⟩ := h
  exact ⟨ts, s, append_play h₀ hp (.nil : Runs R s₀ [] s₀) hrun, hok⟩

theorem exists_of_play {perform : σ → ρ → Option (α × σ)} {rs : List ρ}
    {ok : List (σ × α × σ) → σ → Bool} (hp : ∀ s r a t, perform s r = some (a, t) → R s a t)
    (h : (play perform s₀ rs).any (fun x => ok x.1 x.2) = true) :
    ∃ ts s, Runs R s₀ ts s ∧ ok ts s = true :=
  exists_of_play_of (I := fun _ => True) trivial (fun s r a t _ he => ⟨hp s r a t he, trivial⟩) h

theorem exists_of_plays (perform : σ → ρ → Option (α × σ)) (s₀ : σ) (rs rs' : List ρ)
    (ok : σ → List (σ × α × σ) → σ → Bool) (hp : ∀ s r a t, perform s r = some (a, t) → R s a t)
    (h : ((play perform s₀ rs).bind fun x =>
      (play perform x.2 rs').map fun y => ok x.2 y.1 y.2) = some true) :
    ∃ ts s us t, Runs R s₀ ts s ∧ Runs R s us t ∧ ok s us t = true := by
  have hstep : ∀ s r a t, True → perform s r = some (a, t) → R s a t ∧ True :=
    fun s r a t _ he => ⟨hp s r a t he, trivial⟩
  obtain ⟨⟨ts, s⟩, hts, h⟩ := Option.bind_eq_some_iff.1 h
  obtain ⟨⟨us, t⟩, hus, hok⟩ := Option.map_eq_some_iff.1 h
  exact ⟨ts, s, us, t, append_play trivial hstep (.nil : Runs R s₀ [] s₀) hts,
    append_play trivial hstep (.nil : Runs R s [] s) hus, hok⟩

end Runs
