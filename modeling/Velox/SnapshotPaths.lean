import Velox.SnapshotSafety

namespace Velox
set_option autoImplicit true

def ThreadAction.books : ThreadAction ι → List OrderBook
  | .update b => [b]
  | _ => []

namespace SnapshotThreads

variable {ι : Type} [DecidableEq ι] {s t u : SnapshotThreads ι} {b : OrderBook} {n k : NodePtr}
  {r : ι} {a : ThreadAction ι} {bs cs : List OrderBook} {c : Option NodePtr} {ks ns : List NodePtr}

/-- The books handed to `update` during a run. -/
def updates (us : List (SnapshotThreads ι × ThreadAction ι × SnapshotThreads ι)) : List OrderBook :=
  us.flatMap fun x => x.2.1.books

/-- Some run hands `update` these books on the way from one state to another. -/
def Path (s : SnapshotThreads ι) (bs : List OrderBook) (t : SnapshotThreads ι) : Prop :=
  ∃ us, Runs Step s us t ∧ updates us = bs

namespace Path

theorem refl (s : SnapshotThreads ι) : Path s [] s := ⟨[], .nil, rfl⟩

theorem snoc (h : Path s bs t) (hst : Step t a u) : Path s (bs ++ a.books) u := by
  obtain ⟨us, hr, rfl⟩ := h
  refine ⟨us ++ [(t, a, u)], hr.snoc hst, ?_⟩
  rw [updates, updates, List.flatMap_append, List.flatMap_singleton]

theorem trans (h : Path s bs t) (h' : Path t cs u) : Path s (bs ++ cs) u := by
  obtain ⟨us, hr, rfl⟩ := h
  obtain ⟨vs, hr', rfl⟩ := h'
  exact ⟨us ++ vs, hr.trans hr', List.flatMap_append⟩

theorem scan (hw : s.writer = .scanning b c (ks ++ ns))
    (hk : ∀ k ∈ ks, some k ≠ c → s.manager.refCount k ≠ 0) :
    Path s [] { s with writer := .scanning b c ns } := by
  induction ks generalizing s with
  | nil =>
    have hs : { s with writer := .scanning b c ns } = s := by
      rw [← List.nil_append ns, ← hw]
    rw [hs]
    exact refl s
  | cons k ks ih =>
    have hstep : Step s .write { s with writer := .scanning b c (ks ++ ns) } := by
      by_cases hc : some k = c
      · exact .current hw hc
      · exact .busy hw hc (hk k List.mem_cons_self hc)
    have hrest := ih (s := { s with writer := .scanning b c (ks ++ ns) }) rfl
      fun k' hk' => hk k' (List.mem_cons_of_mem k hk')
    exact ((refl s).snoc hstep).trans hrest

theorem fill {ws : List FieldWrite} (hw : s.writer = .capturing b n ws) :
    ∃ m, Path s [] { s with writer := .capturing b n [], manager := m } ∧
      m.mCurrent = s.manager.mCurrent ∧ ∀ k, m.refCount k = s.manager.refCount k := by
  induction ws generalizing s with
  | nil =>
    refine ⟨s.manager, ?_, rfl, fun _ => rfl⟩
    have hs : { s with writer := .capturing b n [] } = s := by
      rw [← hw]
    exact hs ▸ refl s
  | cons w ws ih =>
    obtain ⟨m, hp, hc, href⟩ := ih (s := { s with
      writer := .capturing b n ws, manager := s.manager.write n w }) rfl
    exact ⟨m, ((refl s).snoc (.field hw)).trans hp, hc,
      fun k => (href k).trans (BookSnapshotManager.refCount_write w)⟩

theorem update (hw : s.writer = .idle) (b : OrderBook) (hn : s.manager.mCurrent ≠ some n)
    (hfree : s.manager.refCount n = 0) (hks : List.finRange numNodes = ks ++ n :: ns)
    (hk : ∀ k ∈ ks, s.manager.mCurrent ≠ some k → s.manager.refCount k ≠ 0) :
    ∃ m, Path s [b] { s with writer := .idle, manager := m, published := s.published ++ [b] } ∧
      m.mCurrent = some n ∧ ∀ k, m.refCount k = s.manager.refCount k := by
  have hload := ((refl s).snoc (.update (b := b) hw)).snoc (.load rfl)
  have hscan := hload.trans (scan (show WriterPc.scanning b s.manager.mCurrent
    (List.finRange numNodes) = .scanning b s.manager.mCurrent (ks ++ n :: ns) by rw [hks])
    fun k hks hne => hk k hks (Ne.symm hne))
  have hchoose := hscan.snoc (.choose rfl (Ne.symm hn) hfree)
  obtain ⟨m, hfill, -, href⟩ := fill (s := { s with
    writer := .capturing b n (captureSnapshot s.manager.mDepth b) }) rfl
  have hpublish := ((hchoose.trans hfill).snoc (.publish rfl)).snoc (.count rfl)
  exact ⟨_, hpublish, rfl, href⟩

theorem skip (hw : s.writer = .idle) (b : OrderBook)
    (hk : ∀ k, s.manager.mCurrent ≠ some k → s.manager.refCount k ≠ 0) : Path s [b] s := by
  have hload := ((refl s).snoc (.update (b := b) hw)).snoc (.load rfl)
  have hscan := hload.trans (scan (show WriterPc.scanning b s.manager.mCurrent
    (List.finRange numNodes) = .scanning b s.manager.mCurrent (List.finRange numNodes ++ []) by
      rw [List.append_nil]) fun k _ hne => hk k (Ne.symm hne))
  have hskip := hscan.snoc (.skip rfl)
  have hs : { s with writer := .idle } = s := by
    rw [← hw]
  rw [hs] at hskip
  exact hskip

theorem pin (hr : s.readers r = .idle) (hc : s.manager.mCurrent = some n) :
    Path s [] { s with
      readers := Function.update s.readers r (.pinned n), manager := s.manager.pin n } := by
  have hget := (((refl s).snoc (.get hr)).snoc
    (.loadCurrent (r := r) (n := n) (moveReader_self _) hc)).snoc
    (.pin (r := r) (n := n) (moveReader_self _))
  simp only [moveReader, Function.update_idem] at hget
  exact hget

theorem hold (hr : s.readers r = .idle) (hc : s.manager.mCurrent = some n) :
    Path s [] { s with
      readers := Function.update s.readers r (.holding n), manager := s.manager.pin n } := by
  have hheld := (pin hr hc).snoc
    (.validate (r := r) (n := n) (Function.update_self ..) hc.symm)
  simp only [moveReader, Function.update_idem] at hheld
  exact hheld

end Path

end SnapshotThreads

end Velox
