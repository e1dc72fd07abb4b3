import Velox.OrderBook

namespace Velox
set_option autoImplicit true

structure BookLevel where
  price : Int64 := 0
  quantity : UInt32 := 0
  orderCount : UInt64 := 0
  deriving DecidableEq, Inhabited

structure BookSnapshot where
  symbol : Symbol := Vector.replicate 8 0
  sequence : UInt64 := 0
  timestamp : UInt64 := 0
  bestBid : Int64 := 0
  bestAsk : Int64 := 0
  bidDepth : UInt32 := 0
  askDepth : UInt32 := 0
  spread : Int64 := 0
  midPrice : Float := 0
  bids : List BookLevel := []
  asks : List BookLevel := []

/-- A write to one field of a snapshot; it may read fields written before. -/
abbrev FieldWrite := BookSnapshot → BookSnapshot

namespace BookSnapshot

def valid (s : BookSnapshot) : Bool := decide (s.sequence > 0)

/-- The spread and the mid price are zero when a side is empty. -/
def oneSided (s : BookSnapshot) : Bool := s.bestAsk == Int64.maxValue || s.bestBid == 0

/-- `bids` or `asks`. -/
def levels (s : BookSnapshot) (isBid : Bool) : List BookLevel := if isBid then s.bids else s.asks

def setLevels (s : BookSnapshot) (isBid : Bool) (ls : List BookLevel) : BookSnapshot :=
  if isBid then { s with bids := ls } else { s with asks := ls }

def modifyLevel (s : BookSnapshot) (isBid : Bool) (i : ℕ) (f : BookLevel → BookLevel) :
    BookSnapshot :=
  s.setLevels isBid ((s.levels isBid).modify i f)

def apply (ws : List FieldWrite) (s : BookSnapshot) : BookSnapshot := ws.foldl (fun s w => w s) s

/-- What the constructor leaves in every node: both vectors resized to the depth. -/
def zeroed (depth : ℕ) : BookSnapshot where
  bids := List.replicate depth {}
  asks := List.replicate depth {}

end BookSnapshot

open BookSnapshot

/-- `strncpy` fills the first seven bytes and leaves the eighth. -/
def captureHeader (book : OrderBook) : List FieldWrite :=
  [fun s => { s with symbol := Vector.ofFn fun i =>
      if i.val < 7 then (book.mSymbol.takeWhile (· ≠ 0)).getD i.val 0 else s.symbol[i] },
    fun s => { s with symbol := s.symbol.set 7 0 },
    fun s => { s with sequence := book.mSequence },
    fun s => { s with timestamp := 0 },
    fun s => { s with bestBid := book.mBestBid },
    fun s => { s with bestAsk := book.mBestAsk },
    fun s => { s with bidDepth := book.mBidDepth },
    fun s => { s with askDepth := book.mAskDepth },
    fun s => { s with spread := if s.oneSided then 0 else s.bestAsk - s.bestBid },
    fun s => { s with midPrice :=
      if s.oneSided then 0 else (s.bestBid + s.bestAsk).toFloat / 2 }]

def writeSlot (isBid : Bool) (i : ℕ) (v : BookLevel) : List FieldWrite :=
  [fun s => s.modifyLevel isBid i fun l => { l with price := v.price },
    fun s => s.modifyLevel isBid i fun l => { l with quantity := v.quantity },
    fun s => s.modifyLevel isBid i fun l => { l with orderCount := v.orderCount }]

def captureLevel (lvl : PriceLevel) : BookLevel where
  price := lvl.price
  quantity := lvl.totalQuantity
  orderCount := 0

/-- The first levels of a side go to the first slots, the slots left over are cleared. -/
def captureLevels (depth : ℕ) (book : OrderBook) (isBid : Bool) : List FieldWrite :=
  let count := min (book.levels isBid).length depth
  (((book.levels isBid).take depth).zipIdx.flatMap fun x =>
    writeSlot isBid x.2 (captureLevel (book.level x.1))) ++
  (List.range' count (depth - count)).flatMap fun i => writeSlot isBid i {}

/-- The writes of `capture_snapshot`, in order. -/
def captureSnapshot (depth : ℕ) (book : OrderBook) : List FieldWrite :=
  captureHeader book ++ captureLevels depth book true ++ captureLevels depth book false

def OrderBook.shown (b : OrderBook) (depth : ℕ) (isBid : Bool) : List BookLevel :=
  ((b.levels isBid).take depth).map (fun l => captureLevel (b.level l)) ++
    List.replicate (depth - (b.levels isBid).length) ({} : BookLevel)

/-- The snapshot of a book, whatever was stored before. -/
def BookSnapshot.ofBook (depth : ℕ) (b : OrderBook) : BookSnapshot where
  symbol := Vector.ofFn fun i =>
    if i.val < 7 then (b.mSymbol.takeWhile (· ≠ 0)).getD i.val 0 else 0
  sequence := b.mSequence
  bestBid := b.mBestBid
  bestAsk := b.mBestAsk
  bidDepth := b.mBidDepth
  askDepth := b.mAskDepth
  spread := if b.mBestAsk = Int64.maxValue ∨ b.mBestBid = 0 then 0 else b.mBestAsk - b.mBestBid
  midPrice := if b.mBestAsk = Int64.maxValue ∨ b.mBestBid = 0 then 0
    else (b.mBestBid + b.mBestAsk).toFloat / 2
  bids := b.shown depth true
  asks := b.shown depth false

namespace BookSnapshot

variable {s : BookSnapshot} {isBid : Bool} {depth : ℕ} {b : OrderBook}

theorem apply_nil (s : BookSnapshot) : apply [] s = s := rfl

theorem apply_cons (w : FieldWrite) (ws : List FieldWrite) (s : BookSnapshot) :
    apply (w :: ws) s = apply ws (w s) := rfl

theorem apply_append (ws vs : List FieldWrite) (s : BookSnapshot) :
    apply (ws ++ vs) s = apply vs (apply ws s) := List.foldl_append

@[simp] theorem levels_setLevels (ls : List BookLevel) :
    (s.setLevels isBid ls).levels isBid = ls := by cases isBid <;> rfl

@[simp] theorem setLevels_setLevels (ls ks : List BookLevel) :
    (s.setLevels isBid ls).setLevels isBid ks = s.setLevels isBid ks := by cases isBid <;> rfl

@[simp] theorem setLevels_levels : s.setLevels isBid (s.levels isBid) = s := by cases isBid <;> rfl

theorem modify_slot (ls : List BookLevel) (i : ℕ) (v : BookLevel) :
    ((ls.modify i fun l => { l with price := v.price }).modify i
      fun l => { l with quantity := v.quantity }).modify i
      (fun l => { l with orderCount := v.orderCount }) = ls.set i v := by
  refine List.ext_getElem (by simp) fun j _ _ => ?_
  simp only [List.getElem_modify, List.getElem_set]
  split <;> rfl

theorem apply_writeSlot (i : ℕ) (v : BookLevel) (s : BookSnapshot) :
    apply (writeSlot isBid i v) s = s.setLevels isBid ((s.levels isBid).set i v) := by
  simp only [writeSlot, apply_cons, apply_nil, modifyLevel, levels_setLevels, setLevels_setLevels,
    modify_slot]

theorem apply_slots (done rest vs : List BookLevel) (h : s.levels isBid = done ++ rest)
    (hlen : rest.length = vs.length) :
    apply ((vs.zipIdx done.length).flatMap fun x => writeSlot isBid x.2 x.1) s =
      s.setLevels isBid (done ++ vs) := by
  induction vs generalizing s done rest with
  | nil =>
    rw [List.length_eq_zero_iff.1 hlen] at h
    rw [List.zipIdx_nil, List.flatMap_nil, apply_nil, ← h, setLevels_levels]
  | cons v vs ih =>
    obtain ⟨r, rest, rfl⟩ := List.exists_cons_of_length_eq_add_one hlen
    have hset : (s.levels isBid).set done.length v = (done ++ [v]) ++ rest := by
      rw [h, List.set_append_right _ _ (Nat.le_refl _), Nat.sub_self, List.set_cons_zero,
        List.append_assoc, List.singleton_append]
    rw [List.zipIdx_cons, List.flatMap_cons, apply_append, apply_writeSlot, hset]
    have hrec := ih (done ++ [v]) rest (levels_setLevels (s := s) ((done ++ [v]) ++ rest))
      (Nat.succ.inj hlen)
    rw [List.length_append, List.length_singleton] at hrec
    rw [hrec, setLevels_setLevels, List.append_assoc, List.singleton_append]

theorem captureLevels_eq (depth : ℕ) (b : OrderBook) (isBid : Bool) :
    captureLevels depth b isBid =
      (b.shown depth isBid).zipIdx.flatMap fun x => writeSlot isBid x.2 x.1 := by
  have hclear : ∀ k n, (List.replicate n ({} : BookLevel)).zipIdx k =
      (List.range' k n).map fun i => ({}, i) := fun k n => by
    rw [List.zipIdx_eq_zip_range', List.length_replicate]
    exact List.ext_getElem (by simp) fun i _ _ => by simp
  have hcount : min (b.levels isBid).length depth = ((b.levels isBid).take depth).length := by
    rw [List.length_take, Nat.min_comm]
  have hleft : depth - min (b.levels isBid).length depth = depth - (b.levels isBid).length := by
    omega
  rw [captureLevels, OrderBook.shown, List.zipIdx_append, List.flatMap_append, List.zipIdx_map,
    List.flatMap_map, List.length_map, hclear, List.flatMap_map, hleft, hcount, Nat.zero_add]
  rfl

theorem length_shown (b : OrderBook) (depth : ℕ) (isBid : Bool) :
    (b.shown depth isBid).length = depth := by
  rw [OrderBook.shown, List.length_append, List.length_map, List.length_take, List.length_replicate]
  omega

theorem apply_captureHeader (s : BookSnapshot) (depth : ℕ) (b : OrderBook) :
    apply (captureHeader b) s = { ofBook depth b with bids := s.bids, asks := s.asks } := by
  have hsymbol : (Vector.ofFn fun i : Fin 8 =>
      if i.val < 7 then (b.mSymbol.takeWhile (· ≠ 0)).getD i.val 0 else s.symbol[i]).set 7 0 =
        (ofBook depth b).symbol := by
    refine Vector.ext fun i hi => ?_
    rw [Vector.getElem_set, ofBook, Vector.getElem_ofFn, Vector.getElem_ofFn]
    by_cases h : i < 7
    · simp only [h, if_true, if_neg (show ¬ 7 = i by omega)]
    · simp only [h, if_false, if_pos (show 7 = i by omega)]
  simp only [captureHeader, apply_cons, apply_nil, hsymbol]
  simp only [oneSided, ofBook, Bool.or_eq_true, beq_iff_eq]

theorem apply_captureLevels (b : OrderBook) (h : (s.levels isBid).length = depth) :
    apply (captureLevels depth b isBid) s = s.setLevels isBid (b.shown depth isBid) := by
  rw [captureLevels_eq]
  exact apply_slots [] _ _ rfl (h.trans (length_shown b depth isBid).symm)

/-- Running the capture on a node with vectors of the right length gives the snapshot of the book,
with nothing left of what the node held. -/
theorem apply_captureSnapshot (b : OrderBook) (hb : s.bids.length = depth)
    (ha : s.asks.length = depth) : apply (captureSnapshot depth b) s = ofBook depth b := by
  rw [captureSnapshot, apply_append, apply_append, apply_captureHeader s depth b]
  generalize hu : ({ ofBook depth b with bids := s.bids, asks := s.asks } : BookSnapshot) = u
  have hbids : (u.levels true).length = depth := by rw [← hu]; exact hb
  rw [apply_captureLevels b hbids]
  have hasks : ((u.setLevels true (b.shown depth true)).levels false).length = depth := by
    rw [← hu]; exact ha
  rw [apply_captureLevels b hasks, ← hu]
  rfl

end BookSnapshot

end Velox
