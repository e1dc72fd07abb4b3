import Velox.LevelRing
import Velox.Lib.Greedy

namespace Velox
set_option autoImplicit true

open Greedy

variable {orders orders' : OrderHeap} {incoming p : OrderPtr} {f : Fill} {fs gs : List Fill}

/-- One fill, as the resting and the incoming order record it. -/
def trade (incoming : OrderPtr) (orders : OrderHeap) (f : Fill) : OrderHeap :=
  let orders := Function.update orders f.order ((orders f.order).trade f.quantity)
  Function.update orders incoming ((orders incoming).trade f.quantity)

def replay (incoming : OrderPtr) (orders : OrderHeap) (fs : List Fill) : OrderHeap :=
  fs.foldl (trade incoming) orders

def units (orders : OrderHeap) (p : OrderPtr) : ℕ := (orders p).remainingQuantity.toNat

/-- Fills that two different orders can bear one after the other, at the incoming order's price. -/
def Fair (incoming : OrderPtr) : OrderHeap → List Fill → Prop
  | _, [] => True
  | orders, f :: fs => f.order ≠ incoming ∧ PriceLevel.isLive orders f.order = true ∧
      0 < f.quantity.toNat ∧ f.quantity.toNat ≤ units orders f.order ∧
      f.quantity.toNat ≤ units orders incoming ∧ f.price = (orders incoming).price ∧
      Fair incoming (trade incoming orders f) fs

theorem trade_incoming (h : f.order ≠ incoming) :
    trade incoming orders f incoming = (orders incoming).trade f.quantity := by
  simp only [trade, Function.update_self, Function.update_of_ne h.symm]

theorem trade_maker (h : f.order ≠ incoming) :
    trade incoming orders f f.order = (orders f.order).trade f.quantity := by
  simp only [trade, Function.update_self, Function.update_of_ne h]

theorem trade_other (h : p ≠ f.order) (hi : p ≠ incoming) :
    trade incoming orders f p = orders p := by
  simp only [trade, Function.update_of_ne h, Function.update_of_ne hi]

theorem trade_static {g : Order → β} (hg : ∀ o q, g (o.trade q) = g o) (incoming : OrderPtr)
    (orders : OrderHeap) (f : Fill) (p : OrderPtr) :
    g (trade incoming orders f p) = g (orders p) := by
  have hmaker (q : OrderPtr) :
      g (Function.update orders f.order ((orders f.order).trade f.quantity) q) = g (orders q) := by
    by_cases hq : q = f.order
    · subst hq
      rw [Function.update_self, hg]
    · rw [Function.update_of_ne hq]
  by_cases hp : p = incoming
  · subst hp
    rw [trade, Function.update_self, hg, hmaker]
  · rw [trade, Function.update_of_ne hp, hmaker]

theorem replay_static {g : Order → β} (hg : ∀ o q, g (o.trade q) = g o) (incoming : OrderPtr)
    (orders : OrderHeap) (fs : List Fill) (p : OrderPtr) :
    g (replay incoming orders fs p) = g (orders p) := by
  induction fs generalizing orders with
  | nil => rfl
  | cons f fs ih => exact (ih _).trans (trade_static hg incoming orders f p)

@[simp] theorem replay_nil : replay incoming orders [] = orders := rfl

theorem replay_append : replay incoming orders (fs ++ gs) =
    replay incoming (replay incoming orders fs) gs :=
  List.foldl_append

theorem replay_snoc : replay incoming orders (fs ++ [f]) =
    trade incoming (replay incoming orders fs) f :=
  replay_append

theorem replay_other (hp : p ≠ incoming) (h : ∀ f ∈ fs, f.order ≠ p) :
    replay incoming orders fs p = orders p := by
  induction fs generalizing orders with
  | nil => rfl
  | cons f fs ih =>
    have hf := h f List.mem_cons_self
    exact (ih fun g hg => h g (List.mem_cons_of_mem _ hg)).trans (trade_other hf.symm hp)

theorem fair_append : Fair incoming orders (fs ++ gs) ↔
    Fair incoming orders fs ∧ Fair incoming (replay incoming orders fs) gs := by
  induction fs generalizing orders with
  | nil => simp only [List.nil_append, Fair, true_and, replay_nil]
  | cons f fs ih =>
    simp only [List.cons_append, Fair, ih, and_assoc]
    rfl

theorem Fair.price_eq (h : Fair incoming orders fs) (hf : f ∈ fs) :
    f.price = (orders incoming).price := by
  induction fs generalizing orders with
  | nil => cases hf
  | cons g fs ih =>
    rcases List.mem_cons.1 hf with rfl | hf
    · exact h.2.2.2.2.2.1
    · rw [ih h.2.2.2.2.2.2 hf]
      exact trade_static (fun _ _ => rfl) incoming orders g incoming

theorem Fair.quantity_pos (h : Fair incoming orders fs) (hf : f ∈ fs) : 0 < f.quantity.toNat := by
  induction fs generalizing orders with
  | nil => cases hf
  | cons g fs ih =>
    rcases List.mem_cons.1 hf with rfl | hf
    · exact h.2.2.1
    · exact ih h.2.2.2.2.2.2 hf

/-- The live orders of a list with their open quantities. -/
def liveQueue (orders : OrderHeap) (ps : List OrderPtr) : List (OrderPtr × ℕ) :=
  (ps.filter (PriceLevel.isLive orders)).map fun p => (p, units orders p)

@[simp] theorem liveQueue_nil : liveQueue orders [] = [] := rfl

@[simp] theorem liveQueue_append (ps qs : List OrderPtr) :
    liveQueue orders (ps ++ qs) = liveQueue orders ps ++ liveQueue orders qs := by
  simp only [liveQueue, List.filter_append, List.map_append]

theorem liveQueue_cons_live (h : PriceLevel.isLive orders p = true) (ps : List OrderPtr) :
    liveQueue orders (p :: ps) = (p, units orders p) :: liveQueue orders ps := by
  simp only [liveQueue, List.filter_cons_of_pos h, List.map_cons]

theorem liveQueue_dead {ps : List OrderPtr} (h : ∀ p ∈ ps, PriceLevel.isLive orders p = false) :
    liveQueue orders ps = [] := by
  rw [liveQueue, List.filter_eq_nil_iff.2 fun p hp => by simp only [h p hp, Bool.false_eq_true,
    not_false_eq_true], List.map_nil]

theorem liveQueue_congr {ps : List OrderPtr} (h : ∀ p ∈ ps,
    PriceLevel.isLive orders' p = PriceLevel.isLive orders p ∧ units orders' p = units orders p) :
    liveQueue orders' ps = liveQueue orders ps := by
  rw [liveQueue, List.filter_congr fun p hp => (h p hp).1]
  apply List.map_congr_left
  intro p hp
  rw [(h p (List.mem_of_mem_filter hp)).2]

theorem same_live (h : orders' p = orders p) :
    PriceLevel.isLive orders' p = PriceLevel.isLive orders p ∧ units orders' p = units orders p := by
  simp only [PriceLevel.isLive, units, h, and_self]

theorem mem_liveQueue {x : OrderPtr × ℕ} {ps : List OrderPtr} :
    x ∈ liveQueue orders ps ↔
      x.1 ∈ ps ∧ PriceLevel.isLive orders x.1 = true ∧ x.2 = units orders x.1 := by
  simp only [liveQueue, List.mem_map, List.mem_filter]
  constructor
  · rintro ⟨p, ⟨hp, hl⟩, rfl⟩
    exact ⟨hp, hl, rfl⟩
  · rintro ⟨hp, hl, he⟩
    exact ⟨x.1, ⟨hp, hl⟩, Prod.ext rfl he.symm⟩

def Fill.pair (f : Fill) : OrderPtr × ℕ := (f.order, f.quantity.toNat)

def volume (fs : List Fill) : ℕ := total (fs.map Fill.pair)

def drawnOn (p : OrderPtr) (fs : List Fill) : ℕ := amount p (fs.map Fill.pair)

@[simp] theorem volume_nil : volume [] = 0 := rfl

@[simp] theorem volume_cons (f : Fill) (fs : List Fill) :
    volume (f :: fs) = f.quantity.toNat + volume fs := by
  simp only [volume, List.map_cons, total_cons, Fill.pair]

@[simp] theorem volume_append (fs gs : List Fill) : volume (fs ++ gs) = volume fs + volume gs := by
  simp only [volume, List.map_append, total_append]

@[simp] theorem volume_singleton (f : Fill) : volume [f] = f.quantity.toNat := by
  rw [volume_cons, volume_nil, Nat.add_zero]

theorem drawnOn_cons (p : OrderPtr) (f : Fill) (fs : List Fill) : drawnOn p (f :: fs) =
    (if f.order = p then f.quantity.toNat else 0) + drawnOn p fs := by
  simp only [drawnOn, List.map_cons, amount_cons, Fill.pair]

theorem volume_eq_sum (fs : List Fill) : volume fs = (fs.map fun f => f.quantity.toNat).sum := by
  rw [volume, total, List.map_map]
  rfl

theorem sum_drawnOn {ps : List OrderPtr} (hnd : ps.Nodup) (h : ∀ f ∈ fs, f.order ∈ ps) :
    (ps.map fun p => drawnOn p fs).sum = volume fs := by
  apply sum_amount hnd
  rintro x hx
  obtain ⟨f, hf, rfl⟩ := List.mem_map.1 hx
  exact h f hf

theorem drawnOn_eq_zero (h : ∀ f ∈ fs, f.order ≠ p) : drawnOn p fs = 0 := by
  apply amount_eq_zero
  rintro x hx
  obtain ⟨f, hf, rfl⟩ := List.mem_map.1 hx
  exact h f hf

theorem units_trade_maker (h : f.order ≠ incoming) (hle : f.quantity.toNat ≤ units orders f.order) :
    units (trade incoming orders f) f.order = units orders f.order - f.quantity.toNat := by
  rw [units, trade_maker h]
  exact UInt32.toNat_sub_of_le _ _ (UInt32.le_iff_toNat_le.2 hle)

theorem units_trade_incoming (h : f.order ≠ incoming)
    (hle : f.quantity.toNat ≤ units orders incoming) :
    units (trade incoming orders f) incoming = units orders incoming - f.quantity.toNat := by
  rw [units, trade_incoming h]
  exact UInt32.toNat_sub_of_le _ _ (UInt32.le_iff_toNat_le.2 hle)

theorem Fair.units_maker (h : Fair incoming orders fs) (hp : p ≠ incoming) :
    units (replay incoming orders fs) p + drawnOn p fs = units orders p := by
  induction fs generalizing orders with
  | nil => rfl
  | cons f fs ih =>
    obtain ⟨hne, -, -, hle, -, -, hfs⟩ := h
    have htail := ih hfs
    change units (replay incoming (trade incoming orders f) fs) p + drawnOn p (f :: fs) = _
    rw [drawnOn_cons]
    by_cases hf : f.order = p
    · subst hf
      rw [if_pos rfl]
      rw [units_trade_maker hne hle] at htail
      omega
    · rw [if_neg hf]
      rw [units, units, trade_other (Ne.symm hf) hp] at htail
      rw [units, units]
      omega

theorem Fair.units_incoming (h : Fair incoming orders fs) :
    units (replay incoming orders fs) incoming + volume fs = units orders incoming := by
  induction fs generalizing orders with
  | nil => rfl
  | cons f fs ih =>
    obtain ⟨hne, -, -, -, hle, -, hfs⟩ := h
    have htail := ih hfs
    change units (replay incoming (trade incoming orders f) fs) incoming + volume (f :: fs) = _
    rw [units_trade_incoming hne hle] at htail
    rw [volume_cons]
    omega

end Velox
