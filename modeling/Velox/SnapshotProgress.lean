import Velox.SnapshotPaths

namespace Velox
set_option autoImplicit true

def ReaderPc.node : ReaderPc → Option NodePtr
  | .loaded n => some n
  | .pinned n => some n
  | .lost n => some n
  | .holding n => some n
  | _ => none

theorem ReaderPc.node_of_pins {pc : ReaderPc} (h : pc.pins = some n) : pc.node = some n := by
  cases pc with
  | pinned | lost | holding => exact h
  | idle | getting | loaded => cases h

/-- The book that the writer is about to publish, unless it finds no free node. -/
def WriterPc.pending : WriterPc → List OrderBook
  | .entered b => [b]
  | .scanning b _ _ => [b]
  | .capturing b _ _ => [b]
  | _ => []

namespace SnapshotThreads

variable {ι : Type} {s t : SnapshotThreads ι} {a : ThreadAction ι} {depth : ℕ} {r : ι}

/-- Every node that the writer has passed over, the current one apart, is the fault of a reader, and
no reader is at fault for two: once the writer has begun to look, a reader that leaves an old node
can only come back to the current one. -/
def Blamed (s : SnapshotThreads ι) : Prop :=
  ∀ b c ns, s.writer = .scanning b c ns → ∃ blame : ι → Option NodePtr,
    (∀ r n, (s.readers r).node = some n → some n ≠ c → blame r = some n) ∧
    ∀ n, n ∉ ns → some n ≠ c → ∃ r, blame r = some n

theorem Blamed.of_idle (h : ∀ b c ns, s.writer ≠ .scanning b c ns) : s.Blamed :=
  fun b c ns hw => absurd hw (h b c ns)

theorem Blamed.moved (h : s.Blamed) {m : BookSnapshotManager} {pc : ι → ReaderPc}
    (hscan : ∀ b c ns, s.writer = .scanning b c ns → c = s.manager.mCurrent)
    (hpc : ∀ r n, (pc r).node = some n → (s.readers r).node = some n ∨
      some n = s.manager.mCurrent) :
    ({ s with readers := pc, manager := m } : SnapshotThreads ι).Blamed := by
  intro b c ns hw
  obtain ⟨blame, hblame, hpassed⟩ := h b c ns hw
  refine ⟨blame, fun r n hn hne => ?_, hpassed⟩
  rcases hpc r n hn with hold | hcur
  · exact hblame r n hold hne
  · exact absurd (hcur.trans (hscan b c ns hw).symm) hne

section Steps

variable [Fintype ι] [DecidableEq ι]

omit [DecidableEq ι] in
theorem Safe.exists_pinner (h : s.Safe depth) {n : NodePtr} (hn : s.manager.refCount n ≠ 0) :
    ∃ r, (s.readers r).pins = some n := by
  by_contra hno
  have hzero : s.pinners n = 0 := by
    rw [pinners, Finset.card_eq_zero, Finset.filter_eq_empty_iff]
    exact fun r _ hr => hno ⟨r, hr⟩
  rw [h.counted, hzero] at hn
  exact hn rfl

theorem Step.blamed (hst : Step s a t) (h : s.Safe depth) (hb : s.Blamed) : t.Blamed := by
  have hmove : ∀ {q : ι} {pc : ReaderPc}, (∀ n, pc.node = some n →
      (s.readers q).node = some n ∨ some n = s.manager.mCurrent) →
      ∀ r n, (Function.update s.readers q pc r).node = some n →
        (s.readers r).node = some n ∨ some n = s.manager.mCurrent := by
    intro q pc hpc r n hn
    by_cases hr : r = q
    · subst hr
      rw [Function.update_self] at hn
      exact hpc n hn
    · rw [Function.update_of_ne hr] at hn
      exact .inl hn
  cases hst with
  | update | choose | skip | field | publish | count => exact .of_idle nofun
  | load hw =>
    intro b c ns he
    cases he
    exact ⟨fun r => (s.readers r).node, fun r n hn _ => hn,
      fun n hn => absurd (List.mem_finRange n) hn⟩
  | @current b c n ns hw hc =>
    intro b' c' ns' he
    cases he
    obtain ⟨blame, hblame, hpassed⟩ := hb _ _ _ hw
    refine ⟨blame, hblame, fun k hk hne => hpassed k (fun hmem => ?_) hne⟩
    rcases List.mem_cons.1 hmem with rfl | hmem
    · exact hne hc
    · exact hk hmem
  | @busy b c n ns hw hc hr =>
    intro b' c' ns' he
    cases he
    obtain ⟨blame, hblame, hpassed⟩ := hb _ _ _ hw
    refine ⟨blame, hblame, fun k hk hne => ?_⟩
    by_cases hkn : k = n
    · subst hkn
      obtain ⟨r, hpin⟩ := h.exists_pinner hr
      exact ⟨r, hblame r k (ReaderPc.node_of_pins hpin) hne⟩
    · refine hpassed k (fun hmem => ?_) hne
      rcases List.mem_cons.1 hmem with rfl | hmem
      · exact hkn rfl
      · exact hk hmem
  | get hr => exact hb.moved h.scanned (hmove nofun)
  | null hr hc => exact hb.moved h.scanned (hmove nofun)
  | loadCurrent hr hc =>
    exact hb.moved h.scanned (hmove fun n hn => .inr (hn.symm.trans hc.symm))
  | pin hr => exact hb.moved h.scanned (hmove fun n hn => .inl (by rw [hr]; exact hn))
  | validate hr hc => exact hb.moved h.scanned (hmove fun n hn => .inl (by rw [hr]; exact hn))
  | lose hr hc => exact hb.moved h.scanned (hmove fun n hn => .inl (by rw [hr]; exact hn))
  | retry hr => exact hb.moved h.scanned (hmove nofun)
  | release hr => exact hb.moved h.scanned (hmove nofun)

omit [DecidableEq ι] in
/-- The writer finds no free node only if each of the others is the fault of a reader of its own. -/
theorem Blamed.card_le (h : s.Blamed) {b : OrderBook} {c : Option NodePtr}
    (hw : s.writer = .scanning b c []) : numNodes ≤ Fintype.card ι + 1 := by
  obtain ⟨blame, -, hpassed⟩ := h b c [] hw
  have hcover : ∀ n : NodePtr, ∃ x : Option ι, x.elim c blame = some n := by
    intro n
    by_cases hn : some n = c
    · exact ⟨none, hn.symm⟩
    · obtain ⟨r, hr⟩ := hpassed n List.not_mem_nil hn
      exact ⟨some r, hr⟩
  choose f hf using hcover
  have hinj : Function.Injective f := fun n k he => by
    have hk := hf k
    rw [← he, hf n, Option.some.injEq] at hk
    exact hk
  have hcard := Fintype.card_le_of_injective f hinj
  rwa [Fintype.card_fin, Fintype.card_option] at hcard

theorem Step.updates (hst : Step s a t) (hb : s.Blamed) (hι : Fintype.card ι + 1 < numNodes) :
    s.published ++ s.writer.pending ++ a.books = t.published ++ t.writer.pending := by
  cases hst with
  | skip hw => exact absurd (hb.card_le hw) (Nat.not_le_of_lt hι)
  | @update b hw =>
    rw [hw]
    exact congrArg (· ++ [b]) (List.append_nil _)
  | load hw | current hw hc | busy hw hc hr | choose hw hc hr | field hw | count hw =>
    rw [hw]
    exact List.append_nil _
  | publish hw =>
    rw [hw]
    rfl
  | get | null | loadCurrent | pin | validate | lose | retry | release =>
    exact List.append_nil _

theorem updates_of_runs {ts : List (SnapshotThreads ι × ThreadAction ι × SnapshotThreads ι)}
    (hι : Fintype.card ι + 1 < numNodes) (h : Runs Step (start depth) ts s) :
    updates ts = s.published ++ s.writer.pending := by
  have hcard : Fintype.card ι < 2 ^ 64 := by
    rw [numNodes] at hι
    omega
  have key : (s.Safe depth ∧ s.Blamed) ∧ updates ts = s.published ++ s.writer.pending := by
    induction h with
    | nil => exact ⟨⟨safe_start depth, .of_idle nofun⟩, rfl⟩
    | snoc h hst ih =>
      obtain ⟨⟨hsafe, hblamed⟩, hts⟩ := ih
      refine ⟨⟨hst.safe hcard hsafe, hst.blamed hsafe hblamed⟩, ?_⟩
      rw [updates] at hts ⊢
      rw [List.flatMap_append, List.flatMap_singleton, hts]
      exact hst.updates hblamed hι
  exact key.2

omit [Fintype ι] in
/-- Two readers, each holding an old snapshot, leave the writer no free node. -/
theorem exists_lost (depth : ℕ) {r₁ r₂ : ι} (hr : r₂ ≠ r₁) (b : OrderBook) :
    ∃ s : SnapshotThreads ι, Path (start depth) [b, b, b] s ∧ s.published = [b, b] ∧
      s.writer = .idle := by
  let s₀ : SnapshotThreads ι := start depth
  have hold₁ := Path.hold (s := s₀) (r := r₁) (n := 0) rfl rfl
  let s₁ : SnapshotThreads ι :=
    { s₀ with readers := Function.update s₀.readers r₁ (.holding 0), manager := s₀.manager.pin 0 }
  obtain ⟨m₁, hup₁, hc₁, href₁⟩ := Path.update (s := s₁) (n := 1) rfl b nofun rfl
    (show List.finRange numNodes = [0] ++ 1 :: [2] from rfl)
    fun k hk hne => absurd (by rw [List.mem_singleton.1 hk]; rfl) hne
  let s₂ : SnapshotThreads ι := { s₁ with writer := .idle, manager := m₁, published := [b] }
  have hidle : s₂.readers r₂ = .idle := Function.update_of_ne hr _ _
  have hold₂ := Path.hold (s := s₂) hidle hc₁
  let s₃ : SnapshotThreads ι :=
    { s₂ with readers := Function.update s₂.readers r₂ (.holding 1), manager := m₁.pin 1 }
  have href₃ : ∀ k, s₃.manager.refCount k = 0 + (if k = 0 then 1 else 0) + if k = 1 then 1 else 0 :=
    fun k => BookSnapshotManager.refCount_pin.trans
      (congrArg (· + _) ((href₁ k).trans BookSnapshotManager.refCount_pin))
  have hbusy : s₃.manager.refCount 0 ≠ 0 ∧ s₃.manager.refCount 1 ≠ 0 := by
    rw [href₃, href₃]
    exact ⟨by decide, by decide⟩
  obtain ⟨m₂, hup₂, hc₂, href₂⟩ := Path.update (s := s₃) (n := 2) rfl b
    (by rw [show s₃.manager.mCurrent = some 1 from hc₁]; decide) (by rw [href₃]; rfl)
    (show List.finRange numNodes = [0, 1] ++ 2 :: [] from rfl)
    fun k hk hne => by
      rcases List.mem_pair.1 hk with rfl | rfl
      · exact hbusy.1
      · exact absurd hc₁ hne
  let s₄ : SnapshotThreads ι := { s₃ with writer := .idle, manager := m₂, published := [b, b] }
  have hnodes : ∀ k : NodePtr, k = 0 ∨ k = 1 ∨ k = 2 := by decide
  have hskip := Path.skip (s := s₄) rfl b fun k hne => by
    rw [show s₄.manager.refCount k = _ from href₂ k]
    rcases hnodes k with rfl | rfl | rfl
    · exact hbusy.1
    · exact hbusy.2
    · exact absurd hc₂ hne
  exact ⟨s₄, (((hold₁.trans hup₁).trans hold₂).trans hup₂).trans hskip, rfl, rfl⟩

/-- With fewer readers than spare nodes every book handed to `update` has been published, in order,
but for the one in progress; with as many readers as spare nodes some book can be lost. -/
theorem no_update_lost (depth : ℕ) (readers : UInt64) :
    (∀ ts, ∀ s : SnapshotThreads (Fin readers.toNat), Runs Step (start depth) ts s →
      updates ts = s.published ++ s.writer.pending) ↔ readers.toNat + 1 < numNodes := by
  constructor
  · intro hall
    by_contra hmany
    rw [numNodes, Nat.not_lt] at hmany
    obtain ⟨s, ⟨ts, h, hts⟩, hpub, hidle⟩ := exists_lost depth
      (show (⟨1, by omega⟩ : Fin readers.toNat) ≠ ⟨0, by omega⟩ by simp) (.new [])
    have hlost := congrArg List.length (hall ts s h)
    rw [hts, hpub, hidle] at hlost
    cases hlost
  · intro hfew ts s h
    exact updates_of_runs (by rwa [Fintype.card_fin]) h

end Steps

end SnapshotThreads

end Velox
