import Velox.SnapshotThreads

namespace Velox
set_option autoImplicit true

theorem card_moved {ι α : Type*} [Fintype ι] [DecidableEq ι] (p : α → Prop) [DecidablePred p]
    (f : ι → α) (r : ι) (x : α) :
    (Finset.univ.filter fun i => p (Function.update f r x i)).card + (if p (f r) then 1 else 0) =
      (Finset.univ.filter fun i => p (f i)).card + if p x then 1 else 0 := by
  have hsplit : ∀ g : ι → α, (Finset.univ.filter fun i => p (g i)).card =
      (if p (g r) then 1 else 0) + ∑ i ∈ Finset.univ \ {r}, if p (g i) then 1 else 0 := fun g => by
    rw [Finset.card_filter, ← Finset.sum_sdiff (Finset.subset_univ {r}), Finset.sum_singleton,
      Nat.add_comm]
  have hrest : (∑ i ∈ Finset.univ \ {r}, if p (Function.update f r x i) then 1 else 0) =
      ∑ i ∈ Finset.univ \ {r}, if p (f i) then 1 else 0 := by
    refine Finset.sum_congr rfl fun i hi => ?_
    rw [Finset.mem_sdiff, Finset.mem_singleton] at hi
    rw [Function.update_of_ne hi.2]
  rw [hsplit, hsplit f, hrest, Function.update_self]
  omega

namespace SnapshotThreads

variable {ι : Type} {s t : SnapshotThreads ι} {depth : ℕ} {n k : NodePtr} {r : ι}

/-- A node holds what the constructor put there, or the snapshot of a published book. -/
def Settled (depth : ℕ) (s : SnapshotThreads ι) (n : NodePtr) : Prop :=
  s.manager.snapshot n = .zeroed depth ∨
    ∃ b ∈ s.published, s.manager.snapshot n = .ofBook depth b

theorem Settled.length (h : s.Settled depth n) :
    (s.manager.snapshot n).bids.length = depth ∧ (s.manager.snapshot n).asks.length = depth := by
  rcases h with h | ⟨b, -, h⟩
  · rw [h]
    exact ⟨List.length_replicate, List.length_replicate⟩
  · rw [h]
    exact ⟨BookSnapshot.length_shown b depth true, BookSnapshot.length_shown b depth false⟩

section Readers

variable [DecidableEq ι]

theorem moveReader_self (pc : ReaderPc) : (s.moveReader r pc).readers r = pc :=
  Function.update_self ..

theorem moveReader_other {q : ι} (pc : ReaderPc) (h : q ≠ r) :
    (s.moveReader r pc).readers q = s.readers q := Function.update_of_ne h ..

end Readers

variable [Fintype ι]

def pinners (s : SnapshotThreads ι) (n : NodePtr) : ℕ :=
  (Finset.univ.filter fun r => (s.readers r).pins = some n).card

/-- What every step keeps: reference counts count the readers, the writer scans with the node that
is current, it fills a node that is neither current nor held, and what it has left to write
completes the snapshot of its book. -/
structure Safe (depth : ℕ) (s : SnapshotThreads ι) : Prop where
  depth_eq : s.manager.mDepth = depth
  counted : ∀ n, s.manager.refCount n = UInt64.ofNat (s.pinners n)
  scanned : ∀ b c ns, s.writer = .scanning b c ns → c = s.manager.mCurrent
  apart : ∀ n, s.writer.target = some n → s.manager.mCurrent ≠ some n
  unheld : ∀ n, s.writer.target = some n → ∀ r, s.readers r ≠ .holding n
  filling : ∀ b n ws, s.writer = .capturing b n ws →
    BookSnapshot.apply ws (s.manager.snapshot n) = .ofBook depth b
  settled : ∀ n, s.writer.target ≠ some n → s.Settled depth n

theorem safe_start (depth : ℕ) : (start depth : SnapshotThreads ι).Safe depth where
  depth_eq := rfl
  counted n := by
    have hnone : (start depth : SnapshotThreads ι).pinners n = 0 := by
      rw [pinners, Finset.card_eq_zero, Finset.filter_eq_empty_iff]
      intro r _ h
      cases h
    rw [hnone]
    rfl
  scanned b c ns h := by cases h
  apart n h := by cases h
  unheld n h := by cases h
  filling b n ws h := by cases h
  settled n _ := .inl rfl

/-- A count of zero means that no reader has the node pinned, as there are fewer readers than the
counter can count. -/
theorem Safe.unpinned (h : s.Safe depth) (hι : Fintype.card ι < 2 ^ 64)
    (hn : s.manager.refCount n = 0) (r : ι) : (s.readers r).pins ≠ some n := by
  have hle : s.pinners n ≤ Fintype.card ι := Finset.card_le_univ _
  have hzero : s.pinners n = 0 := by
    have hcount := congrArg UInt64.toNat ((h.counted n).symm.trans hn)
    rwa [UInt64.toNat_ofNat_of_lt' (Nat.lt_of_le_of_lt hle hι)] at hcount
  rw [pinners, Finset.card_eq_zero, Finset.filter_eq_empty_iff] at hzero
  exact hzero (Finset.mem_univ r)

theorem Safe.moveWriter (h : s.Safe depth) (hs : s.writer.target = none) {pc : WriterPc}
    (hpc : pc.target = none)
    (hscan : ∀ b c ns, pc = .scanning b c ns → c = s.manager.mCurrent) :
    ({ s with writer := pc } : SnapshotThreads ι).Safe depth where
  depth_eq := h.depth_eq
  counted := h.counted
  scanned := hscan
  apart n hn := by rw [hpc] at hn; cases hn
  unheld n hn := by rw [hpc] at hn; cases hn
  filling b n ws hw := by
    rw [show pc = _ from hw] at hpc
    cases hpc
  settled n _ := h.settled n (by rw [hs]; exact nofun)

theorem Safe.choose (h : s.Safe depth) (hι : Fintype.card ι < 2 ^ 64) {b : OrderBook}
    (hs : s.writer.target = none) (hc : s.manager.mCurrent ≠ some n)
    (hr : s.manager.refCount n = 0) :
    ({ s with writer := .capturing b n (captureSnapshot s.manager.mDepth b) } :
      SnapshotThreads ι).Safe depth where
  depth_eq := h.depth_eq
  counted := h.counted
  scanned _ _ _ hw := by cases hw
  apart k hk := by cases hk; exact hc
  unheld k hk r hr' := by
    cases hk
    have hnone := h.unpinned hι hr r
    rw [show s.readers r = _ from hr'] at hnone
    exact hnone rfl
  filling b' k ws hw := by
    cases hw
    have hlen := (h.settled n (by rw [hs]; exact nofun)).length
    rw [h.depth_eq]
    exact BookSnapshot.apply_captureSnapshot b hlen.1 hlen.2
  settled k _ := h.settled k (by rw [hs]; exact nofun)

theorem Safe.field (h : s.Safe depth) {b : OrderBook} {w : FieldWrite} {ws : List FieldWrite}
    (hs : s.writer = .capturing b n (w :: ws)) :
    ({ s with writer := .capturing b n ws, manager := s.manager.write n w } :
      SnapshotThreads ι).Safe depth where
  depth_eq := h.depth_eq
  counted k := (BookSnapshotManager.refCount_write w).trans (h.counted k)
  scanned _ _ _ hw := by cases hw
  apart k hk := by
    cases hk
    exact h.apart n (by rw [hs]; rfl)
  unheld k hk := by
    cases hk
    exact h.unheld n (by rw [hs]; rfl)
  filling b' k ws' hw := by
    cases hw
    change BookSnapshot.apply ws ((s.manager.write n w).snapshot n) = _
    rw [BookSnapshotManager.snapshot_write]
    exact h.filling b n (w :: ws) hs
  settled k hk := by
    have hkn : k ≠ n := fun he => hk (by rw [he]; rfl)
    have hold := h.settled k (by rw [hs]; exact fun he => hkn (Option.some.inj he).symm)
    rwa [Settled, BookSnapshotManager.snapshot_write_of_ne w hkn]

theorem Safe.publish (h : s.Safe depth) {b : OrderBook} (hs : s.writer = .capturing b n []) :
    ({ s with
      writer := .counting
      manager := s.manager.publish n
      published := s.published ++ [b] } : SnapshotThreads ι).Safe depth where
  depth_eq := h.depth_eq
  counted := h.counted
  scanned _ _ _ hw := by cases hw
  apart _ hk := by cases hk
  unheld _ hk := by cases hk
  filling _ _ _ hw := by cases hw
  settled k _ := by
    by_cases hk : k = n
    · subst hk
      exact .inr ⟨b, List.mem_append_right _ (List.mem_singleton_self b), h.filling b k [] hs⟩
    · rcases h.settled k (by rw [hs]; exact fun he => hk (Option.some.inj he).symm) with h | h
      · exact .inl h
      · obtain ⟨b', hb', h⟩ := h
        exact .inr ⟨b', List.mem_append_left _ hb', h⟩

variable [DecidableEq ι]

theorem pinners_moveReader (s : SnapshotThreads ι) (r : ι) (pc : ReaderPc) (n : NodePtr) :
    (s.moveReader r pc).pinners n + (if (s.readers r).pins = some n then 1 else 0) =
      s.pinners n + if pc.pins = some n then 1 else 0 :=
  card_moved (fun pc : ReaderPc => pc.pins = some n) s.readers r pc

theorem Safe.moveReader (h : s.Safe depth) {pc : ReaderPc} {m : BookSnapshotManager}
    (hdepth : m.mDepth = s.manager.mDepth) (hcurrent : m.mCurrent = s.manager.mCurrent)
    (hsnap : ∀ n, m.snapshot n = s.manager.snapshot n)
    (hcount : ∀ n, m.refCount n = UInt64.ofNat ((s.moveReader r pc).pinners n))
    (hheld : ∀ n, pc = .holding n → s.writer.target ≠ some n) :
    ({ s.moveReader r pc with manager := m } : SnapshotThreads ι).Safe depth where
  depth_eq := hdepth.trans h.depth_eq
  counted := hcount
  scanned b c ns hw := (h.scanned b c ns hw).trans hcurrent.symm
  apart n hn := hcurrent ▸ h.apart n hn
  unheld n hn q hq := by
    by_cases hqr : q = r
    · subst hqr
      exact hheld n ((moveReader_self pc).symm.trans hq) hn
    · exact h.unheld n hn q ((moveReader_other pc hqr).symm.trans hq)
  filling b n ws hw := (hsnap n).symm ▸ h.filling b n ws hw
  settled n hn := by
    have hold := h.settled n hn
    rwa [Settled, ← hsnap n] at hold

theorem Safe.counted_same (h : s.Safe depth) {pc : ReaderPc} (hpc : pc.pins = (s.readers r).pins)
    (n : NodePtr) : s.manager.refCount n = UInt64.ofNat ((s.moveReader r pc).pinners n) := by
  have hmoved := pinners_moveReader s r pc n
  rw [hpc, Nat.add_right_cancel_iff] at hmoved
  rw [hmoved]
  exact h.counted n

theorem Safe.counted_pin (h : s.Safe depth) {pc : ReaderPc} (hs : (s.readers r).pins = none)
    (hpc : pc.pins = some n) (k : NodePtr) :
    (s.manager.pin n).refCount k = UInt64.ofNat ((s.moveReader r pc).pinners k) := by
  have hmoved := pinners_moveReader s r pc k
  rw [hs, hpc, if_neg nofun, Nat.add_zero] at hmoved
  rw [BookSnapshotManager.refCount_pin, h.counted, hmoved, UInt64.ofNat_add]
  by_cases hk : k = n
  · rw [if_pos hk, if_pos (congrArg some hk.symm)]
    rfl
  · rw [if_neg hk, if_neg fun he => hk (Option.some.inj he).symm]
    rfl

theorem Safe.counted_unpin (h : s.Safe depth) {pc : ReaderPc} (hs : (s.readers r).pins = some n)
    (hpc : pc.pins = none) (k : NodePtr) :
    (s.manager.unpin n).refCount k = UInt64.ofNat ((s.moveReader r pc).pinners k) := by
  have hmoved := pinners_moveReader s r pc k
  rw [hs, hpc, if_neg (show ¬ none = some k from nofun), Nat.add_zero] at hmoved
  rw [BookSnapshotManager.refCount_unpin, h.counted, ← hmoved, UInt64.ofNat_add]
  by_cases hk : k = n
  · rw [if_pos hk, if_pos (congrArg some hk.symm)]
    exact UInt64.add_sub_cancel _ 1
  · rw [if_neg hk, if_neg fun he => hk (Option.some.inj he).symm]
    exact UInt64.add_sub_cancel _ 0

theorem Step.safe {a : ThreadAction ι} (hι : Fintype.card ι < 2 ^ 64) (h : s.Safe depth)
    (hst : Step s a t) : t.Safe depth := by
  cases hst with
  | update hw => exact h.moveWriter (by rw [hw]; rfl) rfl nofun
  | load hw =>
    refine h.moveWriter (by rw [hw]; rfl) rfl fun b c ns he => ?_
    cases he
    rfl
  | current hw hc | busy hw hc hr =>
    refine h.moveWriter (by rw [hw]; rfl) rfl fun b c ns he => ?_
    cases he
    exact h.scanned _ _ _ hw
  | choose hw hc hr =>
    exact h.choose hι (by rw [hw]; rfl) (fun he => hc (he ▸ (h.scanned _ _ _ hw).symm)) hr
  | skip hw => exact h.moveWriter (by rw [hw]; rfl) rfl nofun
  | field hw => exact h.field hw
  | publish hw => exact h.publish hw
  | count hw =>
    have hidle := h.moveWriter (by rw [hw]; rfl) (show WriterPc.idle.target = none from rfl) nofun
    exact ⟨hidle.depth_eq, hidle.counted, nofun, nofun, nofun, nofun, hidle.settled⟩
  | get hr =>
    exact h.moveReader rfl rfl (fun _ => rfl) (h.counted_same (by rw [hr]; rfl)) nofun
  | null hr hc =>
    exact h.moveReader rfl rfl (fun _ => rfl) (h.counted_same (by rw [hr]; rfl)) nofun
  | loadCurrent hr hc =>
    exact h.moveReader rfl rfl (fun _ => rfl) (h.counted_same (by rw [hr]; rfl)) nofun
  | pin hr =>
    exact h.moveReader rfl rfl (fun _ => BookSnapshotManager.snapshot_pin)
      (h.counted_pin (by rw [hr]; rfl) rfl) nofun
  | validate hr hc =>
    refine h.moveReader rfl rfl (fun _ => rfl) (h.counted_same (by rw [hr]; rfl)) fun k hk hw => ?_
    cases hk
    exact h.apart _ hw hc.symm
  | lose hr hc =>
    exact h.moveReader rfl rfl (fun _ => rfl) (h.counted_same (by rw [hr]; rfl)) nofun
  | retry hr | release hr =>
    exact h.moveReader rfl rfl (fun _ => BookSnapshotManager.snapshot_unpin)
      (h.counted_unpin (by rw [hr]; rfl) rfl) nofun

theorem safe_of_runs {ts : List (SnapshotThreads ι × ThreadAction ι × SnapshotThreads ι)}
    (hι : Fintype.card ι < 2 ^ 64) (h : Runs Step (start depth) ts s) : s.Safe depth :=
  h.invariant (safe_start depth) fun _ _ _ hs hst => hst.safe hι hs

theorem Step.held {a : ThreadAction ι} (h : s.Safe depth) (hr : s.readers r = .holding n)
    (hst : Step s a t) (ha : a ≠ .release r) :
    t.readers r = .holding n ∧ t.manager.snapshot n = s.manager.snapshot n := by
  have hother : ∀ {q : ι} {pc pc' : ReaderPc}, s.readers q = pc' → pc' ≠ .holding n →
      (s.moveReader q pc).readers r = .holding n := fun {q pc pc'} hq hne => by
    have hrq : r ≠ q := fun he => hne (hq.symm.trans (he ▸ hr))
    rw [moveReader_other pc hrq, hr]
  cases hst with
  | update | load | current | busy | choose | skip | publish | count => exact ⟨hr, rfl⟩
  | @field b k w ws hw =>
    have hne : n ≠ k := fun he => h.unheld k (by rw [hw]; rfl) r (he ▸ hr)
    exact ⟨hr, BookSnapshotManager.snapshot_write_of_ne w hne⟩
  | get hq | null hq | loadCurrent hq | validate hq | lose hq => exact ⟨hother hq nofun, rfl⟩
  | pin hq => exact ⟨hother hq nofun, BookSnapshotManager.snapshot_pin⟩
  | retry hq => exact ⟨hother hq nofun, BookSnapshotManager.snapshot_unpin⟩
  | @release q k hq =>
    have hrq : r ≠ q := fun he => ha (by rw [he])
    exact ⟨(moveReader_other .idle hrq).trans hr, BookSnapshotManager.snapshot_unpin⟩

theorem held_of_runs {us : List (SnapshotThreads ι × ThreadAction ι × SnapshotThreads ι)}
    (hι : Fintype.card ι < 2 ^ 64) (h : s.Safe depth) (hr : s.readers r = .holding n)
    (hrun : Runs Step s us t) (hus : ∀ x ∈ us, x.2.1 ≠ .release r) :
    t.readers r = .holding n ∧ t.manager.snapshot n = s.manager.snapshot n := by
  have hkept := hrun.invariant_of
    (I := fun u => u.Safe depth ∧ u.readers r = .holding n ∧
      u.manager.snapshot n = s.manager.snapshot n)
    (C := fun x => x.2.1 ≠ .release r) ⟨h, hr, rfl⟩
    (fun u a v ⟨hu, hur, hus⟩ hst ha => by
      obtain ⟨hvr, hvs⟩ := hst.held hu hur ha
      exact ⟨hst.safe hι hu, hvr, hvs.trans hus⟩)
    hus
  exact hkept.2

end SnapshotThreads

end Velox
