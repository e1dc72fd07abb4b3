import Velox.SnapshotPaths

namespace Velox
set_option autoImplicit true

/-- The node that a reader has loaded and not yet compared with the current one. -/
def ReaderPc.unchecked : ReaderPc → Option NodePtr
  | .loaded n => some n
  | .pinned n => some n
  | _ => none

/-- One for a reader that has just lost its node. -/
def ReaderPc.loss : ReaderPc → ℕ
  | .lost _ => 1
  | _ => 0

/-- One for a reader that has loaded a node that is no longer current, and is yet to find out. -/
def ReaderPc.debt (current : Option NodePtr) (pc : ReaderPc) : ℕ :=
  if pc.unchecked = none ∨ pc.unchecked = current then 0 else 1

theorem ReaderPc.debt_le (current : Option NodePtr) (pc : ReaderPc) : pc.debt current ≤ 1 := by
  rw [ReaderPc.debt]
  split <;> decide

def ThreadAction.isRead [DecidableEq ι] (r : ι) : ThreadAction ι → Bool
  | .read q => q = r
  | _ => false

namespace SnapshotThreads

variable {ι : Type} {s t u v : SnapshotThreads ι} {depth : ℕ} {n m : NodePtr} {r q : ι}
  {a : ThreadAction ι}

/-- The snapshot published last, or the constructor's before the first. -/
def newest (depth : ℕ) (s : SnapshotThreads ι) : BookSnapshot :=
  s.published.getLast?.elim (.zeroed depth) (.ofBook depth)

/-- There is a current node, and it holds the snapshot published last. -/
def UpToDate (depth : ℕ) (s : SnapshotThreads ι) : Prop :=
  ∃ n, s.manager.mCurrent = some n ∧ s.manager.snapshot n = s.newest depth

def debt (s : SnapshotThreads ι) (r : ι) : ℕ := (s.readers r).debt s.manager.mCurrent

theorem upToDate_start (depth : ℕ) : (start depth : SnapshotThreads ι).UpToDate depth :=
  ⟨0, rfl, rfl⟩

variable [DecidableEq ι]

theorem Step.upToDate [Fintype ι] (hst : Step s a t) (h : s.Safe depth) (hu : s.UpToDate depth) :
    t.UpToDate depth := by
  obtain ⟨k, hk, hsnap⟩ := hu
  cases hst with
  | update | load | current | busy | choose | skip | count | get | null | loadCurrent | validate
  | lose => exact ⟨k, hk, hsnap⟩
  | @field b n w ws hw =>
    have hne : k ≠ n := fun he => h.apart n (by rw [hw]; rfl) (he ▸ hk)
    exact ⟨k, hk, (BookSnapshotManager.snapshot_write_of_ne w hne).trans hsnap⟩
  | @publish b n hw =>
    refine ⟨n, rfl, ?_⟩
    rw [newest, List.getLast?_concat]
    exact h.filling b n [] hw
  | pin => exact ⟨k, hk, BookSnapshotManager.snapshot_pin.trans hsnap⟩
  | retry | release => exact ⟨k, hk, BookSnapshotManager.snapshot_unpin.trans hsnap⟩

theorem Step.published (hst : Step s a t) : s.published <+: t.published := by
  cases hst with
  | publish => exact List.prefix_append _ _
  | _ => exact List.prefix_refl _

theorem published_of_runs {us : List (SnapshotThreads ι × ThreadAction ι × SnapshotThreads ι)}
    (h : Runs Step s us t) : s.published <+: t.published :=
  h.invariant (I := fun u => s.published <+: u.published) (List.prefix_refl _)
    fun _ _ _ hs hst => hs.trans (Step.published hst)

theorem Step.obtained (hst : Step s (.read r) t) (ht : t.readers r = .holding n) :
    t.manager = s.manager ∧ s.manager.mCurrent = some n ∧ t.published = s.published := by
  cases hst with
  | null | loadCurrent | lose =>
    rw [moveReader_self] at ht
    cases ht
  | validate hr hc =>
    rw [moveReader_self] at ht
    cases ht
    exact ⟨rfl, hc.symm, rfl⟩
  | pin hr =>
    cases (moveReader_self (s := s) (r := r) _).symm.trans ht
  | retry hr =>
    cases (moveReader_self (s := s) (r := r) _).symm.trans ht

theorem Step.not_null (hst : Step s (.read r) t) (hu : s.UpToDate depth) :
    t.readers r ≠ .idle := by
  obtain ⟨n, hn, -⟩ := hu
  cases hst with
  | null hr hc =>
    rw [hn] at hc
    cases hc
  | loadCurrent | validate | lose =>
    rw [moveReader_self]
    exact nofun
  | pin | retry =>
    intro ht
    cases (moveReader_self (s := s) (r := r) _).symm.trans ht

theorem Step.obtained_newest (hst : Step s (.read r) t) (hu : s.UpToDate depth)
    (ht : t.readers r = .holding n) : t.manager.snapshot n = t.newest depth := by
  obtain ⟨hm, hc, hp⟩ := hst.obtained ht
  obtain ⟨k, hk, hsnap⟩ := hu
  rw [hc, Option.some.injEq] at hk
  rw [hm, newest, hp, hk]
  exact hsnap

/-- Snapshots are read in the order of their publication: in any interleaving of the writer and its
readers, a call of `get_snapshot` never returns null, it returns the snapshot published last, and
every later call of any reader returns that one or one published after it. -/
theorem get_snapshot_newest (depth : ℕ) (readers : UInt64)
    {s t : SnapshotThreads (Fin readers.toNat)} {r : Fin readers.toNat}
    {ts : List (SnapshotThreads (Fin readers.toNat) × ThreadAction (Fin readers.toNat) ×
      SnapshotThreads (Fin readers.toNat))}
    (h : Runs Step (start depth) ts s) (hst : Step s (.read r) t) :
    t.readers r ≠ .idle ∧ ∀ n, t.readers r = .holding n →
      t.manager.snapshot n = t.newest depth ∧
      ∀ us u v q m, Runs Step t us u → Step u (.read q) v → v.readers q = .holding m →
        t.published <+: v.published ∧ v.manager.snapshot m = v.newest depth := by
  have hcard : Fintype.card (Fin readers.toNat) < 2 ^ 64 := by
    rw [Fintype.card_fin]
    exact readers.toNat_lt
  have hinv : ∀ {us u}, Runs Step (start depth) us u → u.UpToDate depth := fun hr =>
    (hr.invariant (I := fun u : SnapshotThreads (Fin readers.toNat) =>
      u.Safe depth ∧ u.UpToDate depth) ⟨safe_start depth, upToDate_start depth⟩
      fun _ _ _ hu hst => ⟨hst.safe hcard hu.1, hst.upToDate hu.1 hu.2⟩).2
  refine ⟨hst.not_null (hinv h), fun n hn => ⟨hst.obtained_newest (hinv h) hn, ?_⟩⟩
  intro us u v q m hrun hget hm
  exact ⟨(published_of_runs hrun).trans (Step.published hget),
    hget.obtained_newest (hinv ((h.snoc hst).trans hrun)) hm⟩

/-- A reader obtains the snapshot of the book that the writer has just published. -/
theorem get_snapshot_newest_published :
    ∃ ts, ∃ s t : SnapshotThreads (Fin (1 : UInt64).toNat), ∃ r, Runs Step (start 5) ts s ∧
      Step s (.read r) t ∧ t.published = [.new [65]] ∧
      t.manager.snapshot 1 = .ofBook 5 (.new [65]) := by
  let r : Fin (1 : UInt64).toNat := ⟨0, by decide⟩
  let s : SnapshotThreads (Fin (1 : UInt64).toNat) := start 5
  obtain ⟨m, hupdate, hc, -⟩ := Path.update (s := s) (n := 1) rfl (.new [65]) nofun rfl
    (show List.finRange numNodes = [0] ++ 1 :: [2] from rfl)
    fun k hk hne => absurd (by rw [List.mem_singleton.1 hk]; rfl) hne
  obtain ⟨ts, h, -⟩ := hupdate.trans (Path.pin (r := r) (n := 1) rfl hc)
  have hst := Step.validate (s := { s with
    writer := .idle, published := [.new [65]], manager := m.pin 1,
    readers := Function.update s.readers r (.pinned 1) })
    (r := r) (n := 1) (Function.update_self r (ReaderPc.pinned 1) s.readers) hc.symm
  exact ⟨ts, _, _, r, h, hst, rfl,
    ((get_snapshot_newest 5 1 h hst).2 1 (moveReader_self _)).1⟩

def losses (r : ι) (us : List (SnapshotThreads ι × ThreadAction ι × SnapshotThreads ι)) : ℕ :=
  (us.map fun x => if x.2.1.isRead r then (x.2.2.readers r).loss else 0).sum

theorem loss_moved {pc : ReaderPc} {m : BookSnapshotManager} {a : ThreadAction ι}
    (hc : m.mCurrent = s.manager.mCurrent) (ha : a.isRead r = true → q = r)
    (hpc : q = r → pc.loss + pc.debt s.manager.mCurrent ≤ s.debt r) :
    (if a.isRead r then (Function.update s.readers q pc r).loss else 0) +
      (Function.update s.readers q pc r).debt m.mCurrent ≤ s.debt r := by
  rw [hc]
  by_cases hq : q = r
  · subst hq
    rw [Function.update_self]
    refine le_trans (Nat.add_le_add_right ?_ _) (hpc rfl)
    split
    · exact le_rfl
    · exact Nat.zero_le _
  · rw [if_neg fun h => hq (ha h), Nat.zero_add, Function.update_of_ne (Ne.symm hq), debt]

/-- A loss pays for a snapshot published since the reader loaded its node. -/
theorem Step.loss (hst : Step s a t) (r : ι) :
    (if a.isRead r then (t.readers r).loss else 0) + t.debt r + s.published.length ≤
      s.debt r + t.published.length := by
  have hread : ∀ {q : ι}, (ThreadAction.read q).isRead r = true → q = r := of_decide_eq_true
  cases hst with
  | update | load | current | busy | choose | skip | field | count =>
    exact Nat.add_le_add_right (Nat.zero_add _).le _
  | @publish b n hw =>
    have hle := (s.readers r).debt_le (some n)
    change 0 + (s.readers r).debt (some n) + s.published.length ≤
      s.debt r + (s.published ++ [b]).length
    rw [List.length_append, List.length_singleton]
    omega
  | @get q hr =>
    have hget : (ThreadAction.get q).isRead r = true → q = r := nofun
    exact Nat.add_le_add_right (loss_moved rfl hget fun _ => Nat.zero_le _) _
  | @release q n hr =>
    have hrelease : (ThreadAction.release q).isRead r = true → q = r := nofun
    exact Nat.add_le_add_right (loss_moved rfl hrelease fun _ => Nat.zero_le _) _
  | null hr hc => exact Nat.add_le_add_right (loss_moved rfl hread fun _ => Nat.zero_le _) _
  | loadCurrent hr hc =>
    refine Nat.add_le_add_right (loss_moved rfl hread fun _ => ?_) _
    rw [ReaderPc.debt, if_pos (.inr hc.symm)]
    exact Nat.zero_le _
  | pin hr =>
    refine Nat.add_le_add_right (loss_moved rfl hread fun he => ?_) _
    rw [debt, ← he, hr]
    exact (Nat.zero_add _).le
  | validate hr hc => exact Nat.add_le_add_right (loss_moved rfl hread fun _ => Nat.zero_le _) _
  | lose hr hc =>
    refine Nat.add_le_add_right (loss_moved rfl hread fun he => ?_) _
    have hdebt : s.debt r = 1 := by
      rw [debt, ← he, hr]
      exact if_neg (not_or.2 ⟨nofun, hc⟩)
    rw [hdebt]
    exact le_rfl
  | retry hr => exact Nat.add_le_add_right (loss_moved rfl hread fun _ => Nat.zero_le _) _

/-- A call of `get_snapshot` starts over at most once for every snapshot published meanwhile. -/
theorem get_snapshot_retries {us : List (SnapshotThreads ι × ThreadAction ι × SnapshotThreads ι)}
    (hr : s.readers r = .getting) (h : Runs Step s us t) :
    losses r us + s.published.length ≤ t.published.length := by
  have hdebt : s.debt r = 0 := if_pos (.inl (by rw [hr]; rfl))
  have hpaid : losses r us + t.debt r + s.published.length ≤ t.published.length := by
    induction h with
    | nil =>
      rw [hdebt]
      exact (Nat.zero_add _).le
    | snoc h hst ih =>
      have hloss := hst.loss r
      rw [losses, List.map_append, List.sum_append, List.map_singleton, List.sum_singleton]
      rw [losses] at ih
      simp only
      omega
  omega

/-- A reader that is overtaken by an update starts over. -/
theorem get_snapshot_retries_overtaken : ∃ us, ∃ s t : SnapshotThreads (Fin 1),
    s.readers 0 = .getting ∧ Runs Step s us t ∧ t.readers 0 = .lost 0 ∧ t.published.length = 1 ∧
    losses 0 us + s.published.length ≤ t.published.length := by
  let s : SnapshotThreads (Fin 1) := (start 5).moveReader 0 .getting
  have hloaded := (Path.refl s).snoc (.loadCurrent (r := 0) (n := 0) rfl rfl)
  obtain ⟨m, hupdate, hc, -⟩ := Path.update (s := s.moveReader 0 (.loaded 0)) (n := 1) rfl
    (.new [65]) nofun rfl (show List.finRange numNodes = [0] ++ 1 :: [2] from rfl)
    fun k hk hne => absurd (by rw [List.mem_singleton.1 hk]; rfl) hne
  have hpinned := (hloaded.trans hupdate).snoc (.pin (r := 0) (n := 0) rfl)
  obtain ⟨us, h, -⟩ := hpinned.snoc (.lose (r := 0) (n := 0) rfl (by
    change some 0 ≠ m.mCurrent
    rw [hc]
    decide))
  exact ⟨us, s, _, rfl, h, rfl, rfl, get_snapshot_retries rfl h⟩

end SnapshotThreads

end Velox
