import Velox.BookSnapshotManager
import Velox.Lib.Runs

namespace Velox
set_option autoImplicit true

/-- Where the writer stands in `update`. -/
inductive WriterPc
  | idle
  | entered (book : OrderBook)
  | scanning (book : OrderBook) (current : Option NodePtr) (nodes : List NodePtr)
  | capturing (book : OrderBook) (node : NodePtr) (left : List FieldWrite)
  | counting

def WriterPc.target : WriterPc → Option NodePtr
  | .capturing _ n _ => some n
  | _ => none

/-- Where a reader stands: outside, in a turn of `get_snapshot`, or holding a snapshot. -/
inductive ReaderPc
  | idle
  | getting
  | loaded (node : NodePtr)
  | pinned (node : NodePtr)
  | lost (node : NodePtr)
  | holding (node : NodePtr)

/-- The node whose reference count includes the reader. -/
def ReaderPc.pins : ReaderPc → Option NodePtr
  | .pinned n => some n
  | .lost n => some n
  | .holding n => some n
  | _ => none

/-- One writer and its readers. A thread that holds several snapshots counts as several readers.
`published` lists the books of the updates that have published their snapshot. -/
structure SnapshotThreads (ι : Type) where
  manager : BookSnapshotManager
  writer : WriterPc := .idle
  readers : ι → ReaderPc := fun _ => .idle
  published : List OrderBook := []

inductive ThreadAction (ι : Type)
  | update (book : OrderBook)
  | write
  | get (reader : ι)
  | read (reader : ι)
  | release (reader : ι)

namespace SnapshotThreads

variable {ι : Type} [DecidableEq ι]

def start (depth : ℕ) : SnapshotThreads ι where
  manager := .new depth

def moveReader (s : SnapshotThreads ι) (r : ι) (pc : ReaderPc) : SnapshotThreads ι :=
  { s with readers := Function.update s.readers r pc }

/-- One atomic operation, one field write or one local step of one thread. -/
inductive Step : SnapshotThreads ι → ThreadAction ι → SnapshotThreads ι → Prop
  | update {s} {b : OrderBook} (h : s.writer = .idle) :
    Step s (.update b) { s with writer := .entered b }
  | load {s} {b : OrderBook} (h : s.writer = .entered b) :
    Step s .write { s with
      writer := .scanning b s.manager.mCurrent (List.finRange numNodes) }
  | current {s} {b : OrderBook} {c : Option NodePtr} {n : NodePtr} {ns : List NodePtr}
    (h : s.writer = .scanning b c (n :: ns)) (hc : some n = c) :
    Step s .write { s with writer := .scanning b c ns }
  | busy {s} {b : OrderBook} {c : Option NodePtr} {n : NodePtr} {ns : List NodePtr}
    (h : s.writer = .scanning b c (n :: ns)) (hc : some n ≠ c) (hr : s.manager.refCount n ≠ 0) :
    Step s .write { s with writer := .scanning b c ns }
  | choose {s} {b : OrderBook} {c : Option NodePtr} {n : NodePtr} {ns : List NodePtr}
    (h : s.writer = .scanning b c (n :: ns)) (hc : some n ≠ c) (hr : s.manager.refCount n = 0) :
    Step s .write { s with writer := .capturing b n (captureSnapshot s.manager.mDepth b) }
  | skip {s} {b : OrderBook} {c : Option NodePtr} (h : s.writer = .scanning b c []) :
    Step s .write { s with writer := .idle }
  | field {s} {b : OrderBook} {n : NodePtr} {w : FieldWrite} {ws : List FieldWrite}
    (h : s.writer = .capturing b n (w :: ws)) :
    Step s .write { s with writer := .capturing b n ws, manager := s.manager.write n w }
  | publish {s} {b : OrderBook} {n : NodePtr} (h : s.writer = .capturing b n []) :
    Step s .write { s with
      writer := .counting
      manager := s.manager.publish n
      published := s.published ++ [b] }
  | count {s} (h : s.writer = .counting) :
    Step s .write { s with writer := .idle, manager := s.manager.countUpdate }
  | get {s} {r : ι} (h : s.readers r = .idle) : Step s (.get r) (s.moveReader r .getting)
  | null {s} {r : ι} (h : s.readers r = .getting) (hc : s.manager.mCurrent = none) :
    Step s (.read r) (s.moveReader r .idle)
  | loadCurrent {s} {r : ι} {n : NodePtr} (h : s.readers r = .getting)
    (hc : s.manager.mCurrent = some n) : Step s (.read r) (s.moveReader r (.loaded n))
  | pin {s} {r : ι} {n : NodePtr} (h : s.readers r = .loaded n) :
    Step s (.read r) { s.moveReader r (.pinned n) with manager := s.manager.pin n }
  | validate {s} {r : ι} {n : NodePtr} (h : s.readers r = .pinned n)
    (hc : some n = s.manager.mCurrent) : Step s (.read r) (s.moveReader r (.holding n))
  | lose {s} {r : ι} {n : NodePtr} (h : s.readers r = .pinned n)
    (hc : some n ≠ s.manager.mCurrent) : Step s (.read r) (s.moveReader r (.lost n))
  | retry {s} {r : ι} {n : NodePtr} (h : s.readers r = .lost n) :
    Step s (.read r) { s.moveReader r .getting with manager := s.manager.unpin n }
  | release {s} {r : ι} {n : NodePtr} (h : s.readers r = .holding n) :
    Step s (.release r) { s.moveReader r .idle with manager := s.manager.unpin n }

end SnapshotThreads

end Velox
