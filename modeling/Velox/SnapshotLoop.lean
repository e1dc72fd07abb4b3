import Velox.BookSnapshotManager
import Velox.Lib.Runs

namespace Velox
set_option autoImplicit true

/-- The thread that takes the snapshots of one symbol, after an iteration of its loop: its manager,
the snapshot it obtained and the one it handed to the bots. -/
structure SnapshotLoop where
  manager : BookSnapshotManager
  obtained : Option BookSnapshot := none
  handed : Option BookSnapshot := none

namespace SnapshotLoop

def start (depth : ℕ) : SnapshotLoop where
  manager := .new depth

/-- One iteration, as far as the manager is concerned: only a valid snapshot is released. -/
def iterate (book : OrderBook) (s : SnapshotLoop) : Option SnapshotLoop :=
  (s.manager.update book).getSnapshot.map fun x =>
    match x.1 with
    | none => ⟨x.2, none, none⟩
    | some n =>
      let snap := x.2.snapshot n
      if snap.valid then ⟨x.2.releaseSnapshot (some n), some snap, some snap⟩
      else ⟨x.2, some snap, none⟩

def Step (s : SnapshotLoop) (book : OrderBook) (t : SnapshotLoop) : Prop := s.iterate book = some t

/-- No reader is left, and the bots were given the current book if it has a sequence. -/
def Fresh (depth : ℕ) (x : SnapshotLoop × OrderBook × SnapshotLoop) : Prop :=
  x.2.2.manager.activeReaders = 0 ∧ x.2.2.obtained = some (.ofBook depth x.2.1) ∧
    (0 < x.2.1.mSequence → x.2.2.handed = some (.ofBook depth x.2.1))

end SnapshotLoop

open SnapshotLoop

namespace BookSnapshotManager

variable {m : BookSnapshotManager} {n c : NodePtr} {depth : ℕ}

/-- A manager between iterations that left no pin: a published node, and settled vectors. -/
structure Unpinned (depth : ℕ) (m : BookSnapshotManager) : Prop where
  depth_eq : m.mDepth = depth
  current : ∃ c, m.mCurrent = some c
  counts : ∀ n, m.refCount n = 0
  lengths : ∀ n, (m.snapshot n).bids.length = depth ∧ (m.snapshot n).asks.length = depth

theorem unpinned_new (depth : ℕ) : (new depth).Unpinned depth where
  depth_eq := rfl
  current := ⟨0, rfl⟩
  counts _ := rfl
  lengths _ := ⟨List.length_replicate, List.length_replicate⟩

theorem getSnapshot_eq (h : m.mCurrent = some n) : m.getSnapshot = some (some n, m.pin n) := by
  have hbody : getSnapshotBody (none, m) = some (.inl (some n, m.pin n)) := by
    simp only [getSnapshotBody, h]
    rw [if_pos (show some n = (m.pin n).mCurrent from h.symm)]
  exact Loop.run_leave hbody 0

theorem unpin_pin (m : BookSnapshotManager) (n : NodePtr) : (m.pin n).unpin n = m := by
  simp only [pin, unpin, modifyNode, Function.update_self, Function.update_idem,
    UInt64.add_sub_cancel, Function.update_eq_self]

theorem activeReaders_eq (m : BookSnapshotManager) :
    m.activeReaders = 0 + m.refCount 0 + m.refCount 1 + m.refCount 2 := rfl

/-- With no pins there is a node to fill, as there are three nodes and one is published. -/
theorem Unpinned.findFreeNode (h : m.Unpinned depth) : ∃ n, m.findFreeNode = some n := by
  obtain ⟨c, hc⟩ := h.current
  have hne : ∀ c : NodePtr, (some (c + 1) != some c) = true := by decide
  have hfree : (some (c + 1) != m.mCurrent && (m.mNodes (c + 1)).refCount == 0) = true := by
    rw [hc, show (m.mNodes (c + 1)).refCount = 0 from h.counts (c + 1), hne]
    rfl
  exact Option.isSome_iff_exists.1 (List.find?_isSome.2 ⟨c + 1, List.mem_finRange _, hfree⟩)

theorem Unpinned.update (h : m.Unpinned depth) (b : OrderBook) :
    (m.update b).Unpinned depth ∧ ∃ n, (m.update b).mCurrent = some n ∧
      (m.update b).snapshot n = .ofBook depth b := by
  obtain ⟨n, hn⟩ := h.findFreeNode
  obtain ⟨hbids, hasks⟩ := h.lengths n
  have hshown : (m.write n (.apply (captureSnapshot m.mDepth b))).snapshot n = .ofBook depth b := by
    rw [snapshot_write, h.depth_eq]
    exact BookSnapshot.apply_captureSnapshot b hbids hasks
  have hupdate : m.update b =
      ((m.write n (.apply (captureSnapshot m.mDepth b))).publish n).countUpdate := by
    simp only [BookSnapshotManager.update, hn]
  have hlengths : ∀ k, ((m.update b).snapshot k).bids.length = depth ∧
      ((m.update b).snapshot k).asks.length = depth := fun k => by
    rw [hupdate]
    change ((m.write n _).snapshot k).bids.length = depth ∧ ((m.write n _).snapshot k).asks.length = _
    by_cases hk : k = n
    · rw [hk, hshown]
      exact ⟨BookSnapshot.length_shown b depth true, BookSnapshot.length_shown b depth false⟩
    · rw [snapshot_write_of_ne _ hk]
      exact h.lengths k
  refine ⟨⟨?_, ⟨n, ?_⟩, fun k => ?_, hlengths⟩, n, ?_, ?_⟩
  all_goals rw [hupdate]
  · exact h.depth_eq
  · rfl
  · exact (refCount_write _).trans (h.counts k)
  · rfl
  · exact hshown

end BookSnapshotManager

namespace SnapshotLoop

variable {s t : SnapshotLoop} {depth : ℕ} {b : OrderBook} {n : NodePtr}

theorem valid_ofBook (depth : ℕ) (b : OrderBook) :
    (BookSnapshot.ofBook depth b).valid = decide (0 < b.mSequence) := rfl

theorem iterate_unpinned (h : s.manager.Unpinned depth) (b : OrderBook) :
    ∃ n, s.iterate b = some (if 0 < b.mSequence
      then ⟨s.manager.update b, some (.ofBook depth b), some (.ofBook depth b)⟩
      else ⟨(s.manager.update b).pin n, some (.ofBook depth b), none⟩) := by
  obtain ⟨-, n, hcurrent, hshown⟩ := h.update b
  refine ⟨n, ?_⟩
  rw [iterate, BookSnapshotManager.getSnapshot_eq hcurrent, Option.map_some]
  simp only [BookSnapshotManager.snapshot_pin, hshown, valid_ofBook, decide_eq_true_eq,
    BookSnapshotManager.releaseSnapshot, BookSnapshotManager.unpin_pin]

theorem Step.fresh (h : s.manager.Unpinned depth) (hst : Step s b t) (hb : 0 < b.mSequence) :
    t.manager.Unpinned depth ∧ Fresh depth (s, b, t) := by
  obtain ⟨n, hturn⟩ := iterate_unpinned h b
  rw [if_pos hb] at hturn
  obtain rfl := Option.some.inj (hst.symm.trans hturn)
  have hunpinned := (h.update b).1
  refine ⟨hunpinned, ?_, rfl, fun _ => rfl⟩
  change (s.manager.update b).activeReaders = 0
  rw [BookSnapshotManager.activeReaders_eq, hunpinned.counts, hunpinned.counts, hunpinned.counts]
  rfl

theorem Step.leaks (h : s.manager.Unpinned depth) (hst : Step s b t) (hb : ¬ 0 < b.mSequence) :
    t.manager.activeReaders = 1 := by
  obtain ⟨n, hturn⟩ := iterate_unpinned h b
  rw [if_neg hb] at hturn
  obtain rfl := Option.some.inj (hst.symm.trans hturn)
  have hunpinned := (h.update b).1
  change ((s.manager.update b).pin n).activeReaders = 1
  rw [BookSnapshotManager.activeReaders_eq]
  simp only [BookSnapshotManager.refCount_pin, hunpinned.counts]
  have hone : ∀ n : NodePtr, (0 : UInt64) + (0 + if 0 = n then 1 else 0) +
      (0 + if 1 = n then 1 else 0) + (0 + if 2 = n then 1 else 0) = 1 := by decide
  exact hone n

/-- Every iteration of the loop releases what it pinned and obtains the current book, exactly when
the book has a sequence in every iteration. -/
theorem always_fresh_iff (depth : ℕ) {s : SnapshotLoop}
    {ts : List (SnapshotLoop × OrderBook × SnapshotLoop)} (h : Runs Step (start depth) ts s) :
    (∀ x ∈ ts, Fresh depth x) ↔ ∀ x ∈ ts, 0 < x.2.1.mSequence := by
  refine h.each_iff (I := fun s => s.manager.Unpinned depth)
    (BookSnapshotManager.unpinned_new depth) (fun s b t hs hst hb => hst.fresh hs hb) ?_
  intro s b t hs hst hfresh
  by_contra hb
  have hleak := hst.leaks hs hb
  rw [hfresh.1] at hleak
  cases hleak

def perform (s : SnapshotLoop) (b : OrderBook) : Option (OrderBook × SnapshotLoop) :=
  (s.iterate b).map fun t => (b, t)

theorem perform_step (s : SnapshotLoop) (r b : OrderBook) (t : SnapshotLoop)
    (h : perform s r = some (b, t)) : Step s b t := by
  rw [perform, Option.map_eq_some_iff] at h
  obtain ⟨u, hu, he⟩ := h
  obtain ⟨rfl, rfl⟩ := Prod.mk.inj he
  exact hu

def bookAt (sequence : UInt64) : OrderBook := { mSymbol := [65], mSequence := sequence }

theorem exists_run (depth : ℕ) (books : List OrderBook)
    (ok : List (SnapshotLoop × OrderBook × SnapshotLoop) → SnapshotLoop → Bool)
    (h : (Runs.play perform (start depth) books).any (fun x => ok x.1 x.2) = true) :
    ∃ ts s, Runs Step (start depth) ts s ∧ ok ts s = true :=
  Runs.exists_of_play perform_step h

theorem always_fresh_iff_three_books :
    ∃ ts s, Runs Step (start 5) ts s ∧ ts.length = 3 ∧ ∀ x ∈ ts, Fresh 5 x := by
  let ok := fun (ts : List (SnapshotLoop × OrderBook × SnapshotLoop)) (_ : SnapshotLoop) =>
    decide (ts.length = 3 ∧ ∀ x ∈ ts, 0 < x.2.1.mSequence)
  obtain ⟨ts, s, hrun, hok⟩ := exists_run 5 [bookAt 1, bookAt 1, bookAt 2] ok
    (by decide +kernel)
  obtain ⟨hlength, hpositive⟩ := of_decide_eq_true hok
  exact ⟨ts, s, hrun, hlength, (always_fresh_iff 5 hrun).2 hpositive⟩

/-- Two iterations before the first order leave two pins, and the fourth iteration still hands over
the third one's book. -/
theorem stale_after_two_leaks :
    ∃ ts s, Runs Step (start 5) ts s ∧ ts.map (fun x => x.2.1.mSequence) = [0, 0, 1, 2] ∧
      s.manager.activeReaders = 2 ∧ s.handed.map BookSnapshot.sequence = some 1 ∧
      ¬ ∀ x ∈ ts, Fresh 5 x := by
  let ok := fun (ts : List (SnapshotLoop × OrderBook × SnapshotLoop)) (s : SnapshotLoop) =>
    decide (ts.map (fun x => x.2.1.mSequence) = [0, 0, 1, 2] ∧ s.manager.activeReaders = 2 ∧
      s.handed.map BookSnapshot.sequence = some 1 ∧ ∃ x ∈ ts, x.2.2.manager.activeReaders ≠ 0)
  obtain ⟨ts, s, hrun, hok⟩ := exists_run 5 [bookAt 0, bookAt 0, bookAt 1, bookAt 2] ok
    (by decide +kernel)
  obtain ⟨hbooks, hactive, hstale, x, hx, hleak⟩ := of_decide_eq_true hok
  exact ⟨ts, s, hrun, hbooks, hactive, hstale, fun hall => hleak (hall x hx).1⟩

end SnapshotLoop

end Velox
