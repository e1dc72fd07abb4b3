import Velox.BookSession
import Velox.SnapshotOrder

namespace Velox
set_option autoImplicit true

open OrderBook

namespace OrderBook

/-- A version of a book that is at least as new, and the same to every reader if it has the same
sequence number. -/
def Newer (b b' : OrderBook) : Prop :=
  b.mSequence < b'.mSequence ∨
    (b.mSequence = b'.mSequence ∧ ∀ depth, BookSnapshot.ofBook depth b = .ofBook depth b')

theorem Newer.refl (b : OrderBook) : b.Newer b := .inr ⟨rfl, fun _ => rfl⟩

theorem Newer.trans {b c d : OrderBook} (h : b.Newer c) (h' : c.Newer d) : b.Newer d := by
  rcases h with h | ⟨h, hsame⟩
  · rcases h' with h' | ⟨h', -⟩
    · exact .inl (UInt64.lt_trans h h')
    · exact .inl (h' ▸ h)
  · rcases h' with h' | ⟨h', hsame'⟩
    · exact .inl (h ▸ h')
    · exact .inr ⟨h.trans h', fun depth => (hsame depth).trans (hsame' depth)⟩

theorem Newer.le {b c : OrderBook} (h : b.Newer c) : b.mSequence ≤ c.mSequence := by
  rcases h with h | ⟨h, -⟩
  · exact UInt64.le_of_lt h
  · exact h ▸ UInt64.le_refl _

theorem Newer.same {b c : OrderBook} (h : b.Newer c) (he : c.mSequence = b.mSequence) (depth : ℕ) :
    BookSnapshot.ofBook depth c = .ofBook depth b := by
  rcases h with h | ⟨-, hsame⟩
  · exact absurd (he ▸ h) (UInt64.lt_irrefl _)
  · exact (hsame depth).symm

theorem sequence_setLevels (b : OrderBook) (isBid : Bool) (ls : List LevelPtr) :
    (b.setLevels isBid ls).mSequence = b.mSequence := by
  cases isBid <;> rfl

theorem sequence_subDepth (b : OrderBook) (isBid : Bool) (q : UInt32) :
    (b.subDepth isBid q).mSequence = b.mSequence := by
  cases isBid <;> rfl

theorem cancelOrder_version (b : OrderBook) (id : UInt64) (orders : OrderHeap) :
    (b.cancelOrder id orders).2.1.mSequence = b.mSequence + 1 ∨
    ((b.cancelOrder id orders).2.1.mSequence = b.mSequence ∧
      ∀ depth, BookSnapshot.ofBook depth (b.cancelOrder id orders).2.1 = .ofBook depth b) := by
  rw [OrderBook.cancelOrder]
  cases b.mOrderIndex id with
  | none => exact .inr ⟨rfl, fun _ => rfl⟩
  | some loc =>
    cases hl : b.findLevel loc.price loc.isBid with
    | none =>
      simp only [hl]
      exact .inr ⟨rfl, fun _ => rfl⟩
    | some l =>
      simp only [hl]
      refine .inl (congrArg (· + 1) ?_)
      change (if _ then _ else _ : OrderBook).mSequence = _
      split
      · exact (sequence_setLevels _ _ _).trans (sequence_subDepth _ _ _)
      · exact sequence_subDepth _ _ _

end OrderBook

namespace Session

variable {s t : Session} {e : BookEvent}

/-- A call counts as a change, or the book is the same as before to every reader. -/
theorem Step.version (hs : Step s e t) (h : s.Kept) :
    t.book.mSequence = s.book.mSequence + 1 ∨
    (t.book.mSequence = s.book.mSequence ∧
      ∀ depth, BookSnapshot.ofBook depth t.book = .ofBook depth s.book) := by
  cases hs with
  | @«match» p o _ u r hp hid ho hm =>
    rcases h.match_cases hp hm with ⟨-, rfl, -⟩ | ⟨-, ⟨v, fs, hpr, -⟩, -⟩
    · exact .inr ⟨rfl, fun _ => rfl⟩
    · left
      have hrest : (v.book.rest p o.isBuy v.orders).mSequence = v.book.mSequence := by
        rcases hpr.final with ⟨-, he⟩ | ⟨-, l, lvl, A, B, hr⟩
        · rw [he]
        · exact hr.sequence
      rw [hpr.book]
      change (v.book.rest p o.isBuy v.orders).mSequence + 1 = _
      rw [hrest, hpr.crossed.sequence]
      rfl
  | cancel id => exact s.book.cancelOrder_version id s.orders

end Session

def WriterPc.book : WriterPc → Option OrderBook
  | .entered b => some b
  | .scanning b _ _ => some b
  | .capturing b _ _ => some b
  | _ => none

/-- An order book, the thread of which hands it to a snapshot manager as it likes, and the readers of
the manager. -/
structure BookFeed (ι : Type) where
  session : Session
  threads : SnapshotThreads ι

inductive FeedAction (ι : Type)
  | call (e : BookEvent)
  | thread (a : ThreadAction ι)

def FeedAction.isCall : FeedAction ι → Bool
  | .call _ => true
  | .thread _ => false

namespace BookFeed

variable {ι : Type} [DecidableEq ι]

def start (symbol : List UInt8) (depth : ℕ) : BookFeed ι := ⟨.start symbol, .start depth⟩

/-- The book's thread is in `update` or changes the book. -/
inductive Step : BookFeed ι → FeedAction ι → BookFeed ι → Prop
  | call {s : BookFeed ι} {e : BookEvent} {t : Session} (hw : s.threads.writer = .idle)
      (h : Session.Step s.session e t) : Step s (.call e) { s with session := t }
  | thread {s : BookFeed ι} {a : ThreadAction ι} {t : SnapshotThreads ι}
      (ha : ∀ b, a = .update b → b = s.session.book) (h : SnapshotThreads.Step s.threads a t) :
      Step s (.thread a) { s with threads := t }

def calls (ts : List (BookFeed ι × FeedAction ι × BookFeed ι)) : ℕ := ts.countP fun x => x.2.1.isCall

variable {s t u v : BookFeed ι} {a : FeedAction ι} {depth : ℕ} {r q : ι} {n m : NodePtr}
  {ts us : List (BookFeed ι × FeedAction ι × BookFeed ι)} {symbol : List UInt8}

/-- The published books are versions of the book, in their order, and the writer is at work on the
present one. -/
structure Versioned (s : BookFeed ι) : Prop where
  kept : s.session.Kept
  versions : (s.threads.published ++ [s.session.book]).Pairwise OrderBook.Newer
  working : ∀ b, s.threads.writer.book = some b → b = s.session.book

omit [DecidableEq ι] in
theorem versioned_start (symbol : List UInt8) (depth : ℕ) :
    (start symbol depth : BookFeed ι).Versioned where
  kept := Session.kept_start symbol
  versions := List.pairwise_singleton _ _
  working _ hb := by cases hb

theorem thread_book {s t : SnapshotThreads ι} {a : ThreadAction ι} (hst : SnapshotThreads.Step s a t)
    {b : OrderBook} (hb : t.writer.book = some b) : s.writer.book = some b ∨ a = .update b := by
  cases hst with
  | update =>
    obtain rfl := Option.some.inj hb
    exact .inr rfl
  | load h | current h | busy h | choose h | field h =>
    left
    rw [h]
    exact hb
  | skip | publish | count => cases hb
  | get | null | loadCurrent | pin | validate | lose | retry | release => exact .inl hb

theorem thread_published {s t : SnapshotThreads ι} {a : ThreadAction ι}
    (hst : SnapshotThreads.Step s a t) : t.published = s.published ∨
      ∃ b, s.writer.book = some b ∧ t.published = s.published ++ [b] := by
  cases hst with
  | publish h => exact .inr ⟨_, by rw [h]; rfl, rfl⟩
  | _ => exact .inl rfl

theorem Step.versioned (hst : Step s a t) (h : s.Versioned)
    (hfew : t.session.book.mSequence = s.session.book.mSequence + 1 →
      s.session.book.mSequence < t.session.book.mSequence) : t.Versioned := by
  cases hst with
  | call hw hs =>
    have hnewer : s.session.book.Newer _ := (hs.version h.kept).imp hfew
      fun hsame => ⟨hsame.1.symm, fun depth => (hsame.2 depth).symm⟩
    refine ⟨hs.kept h.kept, ?_, fun b hb => ?_⟩
    · obtain ⟨hpub, -, hlast⟩ := List.pairwise_append.1 h.versions
      refine List.pairwise_append.2 ⟨hpub, List.pairwise_singleton _ _, fun b hb c hc => ?_⟩
      rw [List.mem_singleton.1 hc]
      exact (hlast b hb _ (List.mem_singleton_self _)).trans hnewer
    · rw [show WriterPc.book _ = WriterPc.book .idle from congrArg WriterPc.book hw] at hb
      cases hb
  | thread ha ht =>
    refine ⟨h.kept, ?_, fun b hb => ?_⟩
    · rcases thread_published ht with he | ⟨b, hb, he⟩
      · rw [he]
        exact h.versions
      · obtain rfl := h.working b hb
        rw [he]
        refine List.pairwise_append.2 ⟨h.versions, List.pairwise_singleton _ _, fun c hc d hd => ?_⟩
        rw [List.mem_singleton.1 hd]
        rcases List.mem_append.1 hc with hc | hc
        · exact (List.pairwise_append.1 h.versions).2.2 c hc _ (List.mem_singleton_self _)
        · rw [List.mem_singleton.1 hc]
          exact .refl _
    · rcases thread_book ht hb with hb | hb
      · exact h.working b hb
      · exact ha b hb

omit [DecidableEq ι] in
theorem calls_snoc (ts : List (BookFeed ι × FeedAction ι × BookFeed ι)) (s t : BookFeed ι)
    (a : FeedAction ι) : calls (ts ++ [(s, a, t)]) = calls ts + if a.isCall then 1 else 0 := by
  rw [calls, List.countP_append, List.countP_singleton]
  rfl

theorem versioned_of_runs (h : Runs Step (start symbol depth) ts s) (hfew : calls ts < 2 ^ 64) :
    s.Versioned ∧ s.session.book.mSequence.toNat ≤ calls ts := by
  induction h with
  | nil => exact ⟨versioned_start symbol depth, Nat.zero_le _⟩
  | @snoc ts s a t h hst ih =>
    rw [calls_snoc] at hfew ⊢
    obtain ⟨hversioned, hle⟩ := ih (by omega)
    cases hst with
    | call hw hs =>
      rw [show (FeedAction.call _).isCall = true from rfl, if_pos rfl] at hfew ⊢
      have hgrow : ∀ {x : UInt64}, x = s.session.book.mSequence + 1 →
          x.toNat = s.session.book.mSequence.toNat + 1 := fun {x} hx => by
        rw [hx, UInt64.toNat_add, show (1 : UInt64).toNat = 1 from rfl, Nat.mod_eq_of_lt]
        omega
      refine ⟨(Step.call hw hs).versioned hversioned fun he => ?_, ?_⟩
      · rw [UInt64.lt_iff_toNat_lt, hgrow he]
        exact Nat.lt_succ_self _
      · rcases hs.version hversioned.kept with he | ⟨he, -⟩
        · rw [hgrow he]
          exact Nat.succ_le_succ hle
        · rw [he]
          exact hle.trans (Nat.le_succ _)
    | thread ha ht =>
      refine ⟨(Step.thread ha ht).versioned hversioned fun he => ?_, hle⟩
      change s.session.book.mSequence = s.session.book.mSequence + 1 at he
      rw [eq_comm, UInt64.add_eq_left] at he
      cases he

theorem Step.threads_of {I : SnapshotThreads ι → Prop} (hst : Step s a t)
    (hI : ∀ b x, SnapshotThreads.Step s.threads b x → I x) (h : I s.threads) : I t.threads := by
  cases hst with
  | call => exact h
  | thread ha ht => exact hI _ _ ht

theorem published_of_runs (h : Runs Step s us t) : s.threads.published <+: t.threads.published :=
  h.invariant (I := fun u => s.threads.published <+: u.threads.published) (List.prefix_refl _)
    fun _ _ _ hu hst => hst.threads_of (fun _ _ ht => hu.trans ht.published) hu

omit [DecidableEq ι] in
theorem Versioned.newest_le (h : v.Versioned) (depth : ℕ) :
    (v.threads.newest depth).sequence ≤ v.session.book.mSequence := by
  rw [SnapshotThreads.newest]
  cases hlast : v.threads.published.getLast? with
  | none => exact UInt64.zero_le
  | some c =>
    exact ((List.pairwise_append.1 h.versions).2.2 c (List.mem_of_getLast? hlast) _
      (List.mem_singleton_self _)).le

omit [DecidableEq ι] in
theorem Versioned.newest_mono (h : v.Versioned) (hp : t.threads.published <+: v.threads.published)
    (depth : ℕ) :
    (t.threads.newest depth).sequence ≤ (v.threads.newest depth).sequence ∧
    ((t.threads.newest depth).valid = true →
      (v.threads.newest depth).sequence = (t.threads.newest depth).sequence →
      v.threads.newest depth = t.threads.newest depth) := by
  rw [SnapshotThreads.newest, SnapshotThreads.newest]
  cases hfirst : t.threads.published.getLast? with
  | none => exact ⟨UInt64.zero_le, fun hvalid => by cases hvalid⟩
  | some b =>
    obtain ⟨early, hearly⟩ := List.getLast?_eq_some_iff.1 hfirst
    obtain ⟨late, hlate⟩ := hp
    have hpub := (List.pairwise_append.1 h.versions).1
    rw [hearly] at hlate
    rcases List.eq_nil_or_concat late with rfl | ⟨mid, c, rfl⟩
    · rw [List.append_nil] at hlate
      rw [← hlate, List.getLast?_concat]
      exact ⟨UInt64.le_refl _, fun _ _ => rfl⟩
    · rw [List.concat_eq_append, ← List.append_assoc] at hlate
      rw [← hlate] at hpub
      have hnewer : b.Newer c := (List.pairwise_append.1 hpub).2.2 b
        (List.mem_append_left _ (List.mem_append_right _ (List.mem_singleton_self b))) c
        (List.mem_singleton_self c)
      rw [← hlate, List.getLast?_concat]
      exact ⟨hnewer.le, fun _ he => hnewer.same he depth⟩

/-- The sequence number of a snapshot is a version number of the book: in any interleaving of the book's
thread and the readers with fewer than 2^64 calls of the book, a snapshot that is obtained later has no
lower number, none has a higher one than the book, and two valid snapshots with the same number are
the same. -/
theorem snapshot_versions (symbol : List UInt8) (depth : ℕ) (readers : UInt64)
    {s t u v : BookFeed (Fin readers.toNat)} {r q : Fin readers.toNat} {n m : NodePtr}
    {ts us : List (BookFeed (Fin readers.toNat) × FeedAction (Fin readers.toNat) ×
      BookFeed (Fin readers.toNat))}
    (h : Runs Step (start symbol depth) ts s) (hst : Step s (.thread (.read r)) t)
    (hn : t.threads.readers r = .holding n) (hus : Runs Step t us u)
    (hst' : Step u (.thread (.read q)) v) (hm : v.threads.readers q = .holding m)
    (hfew : calls (ts ++ us) < 2 ^ 64) :
    (t.threads.manager.snapshot n).sequence ≤ (v.threads.manager.snapshot m).sequence ∧
    (v.threads.manager.snapshot m).sequence ≤ v.session.book.mSequence ∧
    ((t.threads.manager.snapshot n).valid = true →
      (v.threads.manager.snapshot m).sequence = (t.threads.manager.snapshot n).sequence →
      v.threads.manager.snapshot m = t.threads.manager.snapshot n) := by
  have hcard : Fintype.card (Fin readers.toNat) < 2 ^ 64 := by
    rw [Fintype.card_fin]
    exact readers.toNat_lt
  have hcurrent : ∀ {us u}, Runs Step (start symbol depth) us u →
      u.threads.Safe depth ∧ u.threads.UpToDate depth := fun hr =>
    hr.invariant (I := fun u : BookFeed (Fin readers.toNat) =>
      u.threads.Safe depth ∧ u.threads.UpToDate depth)
      ⟨SnapshotThreads.safe_start depth, SnapshotThreads.upToDate_start depth⟩
      fun _ _ _ hu hst => hst.threads_of
        (I := fun x => x.Safe depth ∧ x.UpToDate depth)
        (fun _ _ ht => ⟨ht.safe hcard hu.1, ht.upToDate hu.1 hu.2⟩) hu
  have hread : ∀ {w x : BookFeed (Fin readers.toNat)} {k p ws},
      Runs Step (start symbol depth) ws w → Step w (.thread (.read k)) x →
      x.threads.readers k = .holding p → x.threads.manager.snapshot p = x.threads.newest depth := by
    intro w x k p ws hw hx hp
    cases hx with
    | thread ha ht => exact ht.obtained_newest (hcurrent hw).2 hp
  have hrun := (h.snoc hst).trans hus
  have hall := hrun.snoc hst'
  have hcalls : calls (ts ++ [(s, .thread (.read r), t)] ++ us ++ [(u, .thread (.read q), v)]) =
      calls (ts ++ us) := by
    rw [calls_snoc, calls, List.countP_append, List.countP_append, calls, List.countP_append]
    rfl
  have hversioned := (versioned_of_runs hall (hcalls ▸ hfew)).1
  rw [hread h hst hn, hread hrun hst' hm]
  obtain ⟨hle, hsame⟩ := hversioned.newest_mono (published_of_runs (hus.snoc hst')) depth
  exact ⟨hle, hversioned.newest_le depth, hsame⟩

omit [DecidableEq ι] in
theorem calls_append (ts us : List (BookFeed ι × FeedAction ι × BookFeed ι)) :
    calls (ts ++ us) = calls ts + calls us := List.countP_append

theorem runs_of_path {x y : SnapshotThreads ι} {bs : List OrderBook}
    (h : SnapshotThreads.Path x bs y) (s : Session) (hbs : ∀ b ∈ bs, b = s.book) :
    ∃ ts, Runs Step ⟨s, x⟩ ts ⟨s, y⟩ ∧ calls ts = 0 := by
  obtain ⟨us, hr, rfl⟩ := h
  induction hr with
  | nil => exact ⟨[], .nil, rfl⟩
  | @snoc us y a z hr hst ih =>
    rw [SnapshotThreads.updates, List.flatMap_append, List.flatMap_singleton] at hbs
    obtain ⟨ts, hts, hcalls⟩ := ih fun b hb => hbs b (List.mem_append_left _ hb)
    have ha : ∀ b, a = .update b → b = s.book := fun b he =>
      hbs b (List.mem_append_right _ (he ▸ List.mem_singleton_self b))
    refine ⟨_, hts.snoc (.thread ha hst), ?_⟩
    rw [calls_snoc, hcalls]
    rfl

theorem runs_of_session {x y : Session} {es : List (Session × BookEvent × Session)}
    (h : Runs Session.Step x es y) {w : SnapshotThreads ι} (hw : w.writer = .idle) :
    ∃ ts, Runs Step ⟨x, w⟩ ts ⟨y, w⟩ ∧ calls ts = es.length := by
  induction h with
  | nil => exact ⟨[], .nil, rfl⟩
  | snoc _ hst ih =>
    obtain ⟨ts, hts, hcalls⟩ := ih
    refine ⟨_, hts.snoc (.call hw hst), ?_⟩
    rw [calls_snoc, hcalls, List.length_append]
    rfl

/-- Two readers obtain the snapshot of one book. -/
theorem snapshot_versions_same :
    ∃ ts us, ∃ s t u v : BookFeed (Fin (2 : UInt64).toNat), ∃ r q n,
      Runs Step (start [65] 5) ts s ∧ Step s (.thread (.read r)) t ∧ Runs Step t us u ∧
      Step u (.thread (.read q)) v ∧ calls (ts ++ us) = 1 ∧ v.session.book.mSequence = 1 ∧
      (t.threads.manager.snapshot n).sequence ≤ (v.threads.manager.snapshot n).sequence := by
  obtain ⟨es, s, hses, hok⟩ := Session.exists_run [65] [.match 1 (.limit 1 .SELL 101 5)]
    (fun es s => decide (es.length = 1 ∧ s.book.mSequence = 1)) (by decide +kernel)
  obtain ⟨hlen, hseq⟩ := of_decide_eq_true hok
  let r : Fin (2 : UInt64).toNat := ⟨0, by decide⟩
  let q : Fin (2 : UInt64).toNat := ⟨1, by decide⟩
  have hqr : q ≠ r := by decide
  let x : SnapshotThreads (Fin (2 : UInt64).toNat) := .start 5
  obtain ⟨m, hupdate, hc, -⟩ := SnapshotThreads.Path.update (s := x) (n := 1) rfl s.book nofun rfl
    (show List.finRange numNodes = [0] ++ 1 :: [2] from rfl)
    fun k hk hne => absurd (by rw [List.mem_singleton.1 hk]; rfl) hne
  obtain ⟨ts, hts, htscalls⟩ := runs_of_session hses (w := x) rfl
  obtain ⟨us, hus, huscalls⟩ := runs_of_path
    (hupdate.trans (SnapshotThreads.Path.pin (r := r) (n := 1) rfl hc)) s
    fun b hb => List.mem_singleton.1 hb
  let y : SnapshotThreads (Fin (2 : UInt64).toNat) := { x with
    writer := .idle, published := [s.book], manager := m.pin 1,
    readers := Function.update x.readers r (.pinned 1) }
  have hr : SnapshotThreads.Step y (.read r) (y.moveReader r (.holding 1)) :=
    .validate (Function.update_self r (ReaderPc.pinned 1) x.readers) hc.symm
  have hidle : (y.moveReader r (.holding 1)).readers q = .idle :=
    (Function.update_of_ne hqr (ReaderPc.holding 1) y.readers).trans
      (Function.update_of_ne hqr (ReaderPc.pinned 1) x.readers)
  obtain ⟨vs, hvs, hvscalls⟩ := runs_of_path (SnapshotThreads.Path.pin hidle hc) s nofun
  let z : SnapshotThreads (Fin (2 : UInt64).toNat) := { y.moveReader r (.holding 1) with
    readers := Function.update (y.moveReader r (.holding 1)).readers q (.pinned 1),
    manager := (m.pin 1).pin 1 }
  have hq : SnapshotThreads.Step z (.read q) (z.moveReader q (.holding 1)) :=
    .validate (Function.update_self q (ReaderPc.pinned 1) (y.moveReader r (.holding 1)).readers) hc.symm
  have hcalls : calls (ts ++ us ++ vs) = 1 := by
    rw [calls_append, calls_append, htscalls, huscalls, hvscalls, hlen]
  have hts := hts.trans hus
  refine ⟨ts ++ us, vs, _, _, _, _, r, q, 1, hts, .thread nofun hr, hvs, .thread nofun hq, hcalls,
    hseq, ?_⟩
  exact (snapshot_versions [65] 5 2 hts (.thread nofun hr) (SnapshotThreads.moveReader_self _) hvs
    (.thread nofun hq) (SnapshotThreads.moveReader_self _)
    (hcalls ▸ by decide)).1

end BookFeed

end Velox
