import Velox.BookSnapshot

namespace Velox
set_option autoImplicit true

/-- `NUM_NODES`. -/
abbrev numNodes : ℕ := 3

/-- The address of one of the manager's nodes, and of the snapshot inside it. -/
abbrev NodePtr := Fin numNodes

structure SnapshotNode where
  snapshot : BookSnapshot
  refCount : UInt64 := 0

structure BookSnapshotManager where
  mNodes : NodePtr → SnapshotNode
  mCurrent : Option NodePtr := none
  mUpdateCount : UInt64 := 0
  mDepth : ℕ

namespace BookSnapshotManager

def new (depth : ℕ) : BookSnapshotManager where
  mNodes := fun _ => { snapshot := .zeroed depth }
  mCurrent := some 0
  mDepth := depth

def modifyNode (m : BookSnapshotManager) (n : NodePtr) (f : SnapshotNode → SnapshotNode) :
    BookSnapshotManager :=
  { m with mNodes := Function.update m.mNodes n (f (m.mNodes n)) }

def write (m : BookSnapshotManager) (n : NodePtr) (w : FieldWrite) : BookSnapshotManager :=
  m.modifyNode n fun node => { node with snapshot := w node.snapshot }

/-- `ref_count.fetch_add(1)`. -/
def pin (m : BookSnapshotManager) (n : NodePtr) : BookSnapshotManager :=
  m.modifyNode n fun node => { node with refCount := node.refCount + 1 }

/-- `ref_count.fetch_sub(1)`. -/
def unpin (m : BookSnapshotManager) (n : NodePtr) : BookSnapshotManager :=
  m.modifyNode n fun node => { node with refCount := node.refCount - 1 }

def publish (m : BookSnapshotManager) (n : NodePtr) : BookSnapshotManager :=
  { m with mCurrent := some n }

def countUpdate (m : BookSnapshotManager) : BookSnapshotManager :=
  { m with mUpdateCount := m.mUpdateCount + 1 }

def findFreeNode (m : BookSnapshotManager) : Option NodePtr :=
  (List.finRange numNodes).find? fun n => some n != m.mCurrent && (m.mNodes n).refCount == 0

/-- Without a free node the update is skipped. -/
def update (book : OrderBook) (m : BookSnapshotManager) : BookSnapshotManager :=
  match m.findFreeNode with
  | none => m
  | some n => ((m.write n (.apply (captureSnapshot m.mDepth book))).publish n).countUpdate

/-- One turn of the loop: the node is pinned, then checked to be still the current one. -/
def getSnapshotBody : Option NodePtr × BookSnapshotManager →
    Option ((Option NodePtr × BookSnapshotManager) ⊕ (Option NodePtr × BookSnapshotManager))
  | (_, m) =>
    match m.mCurrent with
    | none => some (.inl (none, m))
    | some n =>
      let m := m.pin n
      if some n = m.mCurrent then some (.inl (some n, m)) else some (.inr (none, m.unpin n))

/-- Run by itself, the loop leaves in its first turn. -/
def getSnapshot (m : BookSnapshotManager) : Option (Option NodePtr × BookSnapshotManager) :=
  Loop.run getSnapshotBody 1 (none, m)

def releaseSnapshot (snapshot : Option NodePtr) (m : BookSnapshotManager) : BookSnapshotManager :=
  match snapshot with
  | none => m
  | some n => m.unpin n

def activeReaders (m : BookSnapshotManager) : UInt64 :=
  (List.finRange numNodes).foldl (fun total n => total + (m.mNodes n).refCount) 0

def snapshot (m : BookSnapshotManager) (n : NodePtr) : BookSnapshot := (m.mNodes n).snapshot

def refCount (m : BookSnapshotManager) (n : NodePtr) : UInt64 := (m.mNodes n).refCount

variable {m : BookSnapshotManager} {n k : NodePtr}

@[simp] theorem snapshot_new (depth : ℕ) : (new depth).snapshot n = .zeroed depth := rfl

@[simp] theorem refCount_new (depth : ℕ) : (new depth).refCount n = 0 := rfl

theorem node_modifyNode (f : SnapshotNode → SnapshotNode) :
    (m.modifyNode n f).mNodes k = if k = n then f (m.mNodes k) else m.mNodes k := by
  by_cases h : k = n
  · subst h
    simp only [modifyNode, Function.update_self, if_true]
  · simp only [modifyNode, Function.update_of_ne h, if_neg h]

@[simp] theorem snapshot_write (w : FieldWrite) : (m.write n w).snapshot n = w (m.snapshot n) := by
  simp only [snapshot, write, node_modifyNode, if_true]

@[simp] theorem snapshot_write_of_ne (w : FieldWrite) (h : k ≠ n) :
    (m.write n w).snapshot k = m.snapshot k := by
  simp only [snapshot, write, node_modifyNode, if_neg h]

@[simp] theorem refCount_write (w : FieldWrite) : (m.write n w).refCount k = m.refCount k := by
  simp only [refCount, write, node_modifyNode, apply_ite SnapshotNode.refCount, ite_self]

@[simp] theorem snapshot_pin : (m.pin n).snapshot k = m.snapshot k := by
  simp only [snapshot, pin, node_modifyNode, apply_ite SnapshotNode.snapshot, ite_self]

@[simp] theorem snapshot_unpin : (m.unpin n).snapshot k = m.snapshot k := by
  simp only [snapshot, unpin, node_modifyNode, apply_ite SnapshotNode.snapshot, ite_self]

theorem refCount_pin : (m.pin n).refCount k = m.refCount k + if k = n then 1 else 0 := by
  simp only [refCount, pin, node_modifyNode]
  split
  · rfl
  · exact (UInt64.add_zero _).symm

theorem refCount_unpin : (m.unpin n).refCount k = m.refCount k - if k = n then 1 else 0 := by
  simp only [refCount, unpin, node_modifyNode]
  split
  · rfl
  · exact (UInt64.sub_zero _).symm

end BookSnapshotManager

end Velox
