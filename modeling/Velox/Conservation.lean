import Velox.EngineSession

namespace Velox
set_option autoImplicit true

open Greedy OrderBook PriceLevel

variable {p q : OrderPtr} {o : Order} {orders : OrderHeap} {fs : List Fill} {x : UInt32}

/-- What an order has filled and what it leaves open make up its quantity. -/
def Order.Whole (o : Order) : Prop :=
  o.filledQuantity.toNat + o.remainingQuantity.toNat = o.quantity.toNat

theorem Order.Fresh.whole (h : o.Fresh) : o.Whole := by
  rw [Order.Whole, h.filled, h.remaining]
  exact Nat.zero_add _

theorem Order.Whole.trade (h : o.Whole) (hle : x.toNat ≤ o.remainingQuantity.toNat) :
    (o.trade x).Whole := by
  have hlt := o.quantity.toNat_lt
  have hadd : (o.filledQuantity + x).toNat = o.filledQuantity.toNat + x.toNat := by
    rw [UInt32.toNat_add, Nat.mod_eq_of_lt]
    unfold Order.Whole at h
    omega
  have hsub := UInt32.toNat_sub_of_le _ _ (UInt32.le_iff_toNat_le.2 hle)
  unfold Order.Whole at h ⊢
  simp only [Order.trade, hadd, hsub]
  omega

theorem Fair.whole (h : Fair p orders fs) (hw : (orders q).Whole) :
    (replay p orders fs q).Whole := by
  induction fs generalizing orders with
  | nil => exact hw
  | cons f fs ih =>
    obtain ⟨hne, -, -, hmaker, htaker, -, hfs⟩ := h
    apply ih hfs
    by_cases hp : q = p
    · subst hp
      rw [trade_incoming hne]
      exact hw.trade htaker
    · by_cases hf : q = f.order
      · subst hf
        rw [trade_maker hne]
        exact hw.trade hmaker
      · rw [trade_other hf hp]
        exact hw

theorem Fair.filled_maker (h : Fair p orders fs) (hw : (orders q).Whole) (hne : q ≠ p) :
    (replay p orders fs q).filledQuantity.toNat =
      (orders q).filledQuantity.toNat + drawnOn q fs := by
  have hafter := h.whole hw
  have hunits := h.units_maker hne
  have hquantity := replay_static (g := Order.quantity) (fun _ _ => rfl) p orders fs q
  rw [Order.Whole, hquantity] at hafter
  rw [Order.Whole] at hw
  rw [units, units] at hunits
  omega

theorem Fair.filled_incoming (h : Fair p orders fs) (hw : (orders p).Whole) :
    (replay p orders fs p).filledQuantity.toNat =
      (orders p).filledQuantity.toNat + volume fs := by
  have hafter := h.whole hw
  have hunits := h.units_incoming
  have hquantity := replay_static (g := Order.quantity) (fun _ _ => rfl) p orders fs p
  rw [Order.Whole, hquantity] at hafter
  rw [Order.Whole] at hw
  rw [units, units] at hunits
  omega

namespace EngineSession

variable {s s' : EngineSession} {t : EngineRun} {u : BookRun} {out : Outcome} {e : EngineEvent}
  {side : Bool} {key : List UInt8} {ps : List OrderPtr} {c : List UInt64}

def filledOf (orders : OrderHeap) (ps : List OrderPtr) : ℕ :=
  (ps.map fun q => (orders q).filledQuantity.toNat).sum

def submitted (s : EngineSession) (side : Bool) : List OrderPtr :=
  s.known.filter fun q => (s.run.orders q).isBuy = side

/-- What every step keeps: the order quantities add up, as much is bought as sold, and the position
manager has counted both. -/
structure Conserved (key : List UInt8) (s : EngineSession) : Prop where
  kept : s.book.Kept
  nodup : s.known.Nodup
  keyed : ∀ q ∈ s.known, (s.run.orders q).key = key
  whole : ∀ q ∈ s.known, (s.run.orders q).Whole
  sides : filledOf s.run.orders (s.submitted true) = filledOf s.run.orders (s.submitted false)
  booked : ∃ pm, s.run.shared.positionManager = some pm ∧ ∀ name,
    (pm.position name).netPosition = 0 ∧
    (pm.position name).totalBought = (pm.position name).totalSold

theorem mem_submitted : q ∈ s.submitted side ↔ q ∈ s.known ∧ (s.run.orders q).isBuy = side := by
  rw [submitted, List.mem_filter, decide_eq_true_eq]

theorem filledOf_congr {orders' : OrderHeap}
    (h : ∀ q ∈ ps, (orders' q).filledQuantity = (orders q).filledQuantity) :
    filledOf orders' ps = filledOf orders ps := by
  rw [filledOf, List.map_congr_left fun q hq => by rw [h q hq]]
  rfl

section Accepts

variable (ha : EngineRun.Accepts p (s.call p o) u out t) (h : s.book.Kept) (hp : p ∉ s.known)
  (ho : o.Fresh) (hw : ∀ q ∈ s.known, (s.run.orders q).Whole)
include ha h hp ho hw

omit ha h in
theorem write_whole (hq : q ∈ p :: s.known) : (s.book.write p o.toLimit q).Whole := by
  rcases List.mem_cons.1 hq with rfl | hq
  · rw [Session.write_self]
    exact ho.toLimit.whole
  · rw [Session.write_known hp _ hq]
    exact hw q hq

theorem accepts_whole (hq : q ∈ p :: s.known) : (t.orders q).Whole := by
  obtain ⟨horders, hfair, -⟩ := accepts_fills ha h hp
  rw [accepts_static ha (g := Order.Whole) (fun _ _ => rfl), horders]
  exact hfair.whole (write_whole hp ho hw hq)

omit hw in
theorem accepts_filled_self : (t.orders p).filledQuantity.toNat = volume out.fills := by
  obtain ⟨horders, hfair, -⟩ := accepts_fills ha h hp
  rw [accepts_static ha (g := Order.filledQuantity) (fun _ _ => rfl), horders,
    hfair.filled_incoming (by rw [Session.write_self]; exact ho.toLimit.whole), Session.write_self,
    ho.toLimit.filled]
  exact Nat.zero_add _

theorem accepts_filled_known (hq : q ∈ s.known) : (t.orders q).filledQuantity.toNat =
    (s.run.orders q).filledQuantity.toNat + drawnOn q out.fills := by
  obtain ⟨horders, hfair, -⟩ := accepts_fills ha h hp
  rw [accepts_static ha (g := Order.filledQuantity) (fun _ _ => rfl), horders,
    hfair.filled_maker (write_whole hp ho hw (List.mem_cons_of_mem p hq)) fun he => hp (he ▸ hq),
    Session.write_known hp _ hq]
  rfl

theorem filledOf_grown (hps : ∀ q ∈ ps, q ∈ s.known) : filledOf t.orders ps =
    filledOf s.run.orders ps + (ps.map fun q => drawnOn q out.fills).sum := by
  rw [filledOf, filledOf, ← List.sum_map_add]
  congr 1
  apply List.map_congr_left
  intro q hq
  exact accepts_filled_known ha h hp ho hw (hps q hq)

theorem resting_grown (hnd : s.known.Nodup) : filledOf t.orders s.known =
    filledOf s.run.orders s.known + volume out.fills := by
  rw [filledOf_grown ha h hp ho hw fun q hq => hq,
    sum_drawnOn hnd fun f hf => ((accepts_fills ha h hp).2.2 f hf).1]

theorem submitted_grown (hnd : s.known.Nodup) :
    filledOf t.orders (s.submitted o.isBuy) = filledOf s.run.orders (s.submitted o.isBuy) ∧
    filledOf t.orders (s.submitted (!o.isBuy)) =
      filledOf s.run.orders (s.submitted (!o.isBuy)) + volume out.fills := by
  obtain ⟨-, -, hmakers⟩ := accepts_fills ha h hp
  have hsub : ∀ side, ∀ q ∈ s.submitted side, q ∈ s.known := fun side q hq =>
    (mem_submitted.1 hq).1
  constructor
  · apply filledOf_congr
    intro q hq
    have hgrown := accepts_filled_known ha h hp ho hw (hsub _ q hq)
    rw [drawnOn_eq_zero fun f hf he => ?_, Nat.add_zero] at hgrown
    · exact UInt32.toNat_inj.1 hgrown
    · have hside := (hmakers f hf).2
      rw [he, (mem_submitted.1 hq).2] at hside
      exact Bool.not_ne_self _ hside.symm
  · rw [filledOf_grown ha h hp ho hw (hsub _),
      sum_drawnOn (show (s.submitted _).Nodup from hnd.filter _)]
    exact fun f hf => mem_submitted.2 (hmakers f hf)

end Accepts

theorem sum_makerBookings (orders : OrderHeap) (fs : List Fill) :
    ((makerBookings orders fs).map fun b => b.quantity.toNat).sum = volume fs := by
  rw [makerBookings, List.map_map, volume_eq_sum]
  rfl

theorem sum_takerBookings (orders : OrderHeap) (p : OrderPtr) :
    ((takerBookings orders p).map fun b => b.quantity.toNat).sum =
      (orders p).filledQuantity.toNat := by
  rw [takerBookings]
  split
  · simp
  · rename_i hz
    rw [UInt32.not_lt.1 hz |> UInt32.le_zero_iff.1]
    rfl

theorem mem_takerBookings {b : Booking} (h : b ∈ takerBookings orders p) :
    b = ⟨p, (orders p).filledQuantity, (orders p).price⟩ := by
  rw [takerBookings] at h
  split at h
  · exact List.mem_singleton.1 h
  · cases h

def bookedSide (orders : OrderHeap) (side : Bool) (bs : List Booking) : ℕ :=
  ((bs.filter fun b => (orders b.order).isBuy = side).map fun b => b.quantity.toNat).sum

section Bookings

variable (ha : EngineRun.Accepts p (s.call p o) u out t) (h : s.book.Kept) (hp : p ∉ s.known)
include ha h hp

theorem booked_sides :
    (∀ b ∈ makerBookings u.orders u.fills, (u.orders b.order).isBuy = !o.isBuy) ∧
    ∀ b ∈ takerBookings u.orders p, (u.orders b.order).isBuy = o.isBuy := by
  constructor
  · intro b hb
    obtain ⟨f, hf, rfl⟩ := List.mem_map.1 hb
    obtain ⟨-, -, hmakers⟩ := accepts_fills ha h hp
    rw [ha.outcome] at hmakers
    obtain ⟨hk, hside⟩ := hmakers f hf
    rw [accepts_matched ha h hp (g := Order.isBuy) (fun _ _ => rfl), Session.write_known hp _ hk]
    exact hside
  · intro b hb
    rw [mem_takerBookings hb, accepts_matched ha h hp (g := Order.isBuy) (fun _ _ => rfl),
      Session.write_self, Order.toLimit_static (g := Order.isBuy) fun _ _ _ => rfl]

theorem booked_keys (hkeyed : ∀ q ∈ s.known, (s.run.orders q).key = key) (hkey : o.key = key)
    {b : Booking} (hb : b ∈ out.bookings) : (u.orders b.order).key = key := by
  rw [accepts_matched ha h hp (g := Order.key) (fun _ _ => rfl)]
  obtain ⟨-, -, hmakers⟩ := accepts_fills ha h hp
  rw [ha.outcome] at hb hmakers
  rcases List.mem_append.1 hb with hb | hb
  · obtain ⟨f, hf, rfl⟩ := List.mem_map.1 hb
    have hk := (hmakers f hf).1
    rw [Session.write_known hp _ hk]
    exact hkeyed _ hk
  · rw [mem_takerBookings hb, Session.write_self,
      Order.toLimit_static (g := Order.key) fun _ _ _ => rfl, hkey]

theorem booked_units (ho : o.Fresh) (side : Bool) :
    bookedSide u.orders side out.bookings = volume out.fills := by
  obtain ⟨hmakers, htakers⟩ := booked_sides ha h hp
  have hself := accepts_filled_self ha h hp ho
  rw [accepts_static ha (g := Order.filledQuantity) (fun _ _ => rfl)] at hself
  rw [bookedSide, ha.outcome, List.filter_append, List.map_append, List.sum_append]
  by_cases hside : side = o.isBuy
  · rw [List.filter_eq_nil_iff.2 fun b hb => ?_, List.filter_eq_self.2 fun b hb => ?_,
      sum_takerBookings, hself, ha.outcome]
    · exact Nat.zero_add _
    · rw [hside, decide_eq_true_eq]
      exact htakers b hb
    · rw [hside, decide_eq_true_eq, hmakers b hb]
      exact Bool.not_ne_self _
  · rw [Bool.eq_not_of_ne hside, List.filter_eq_self.2 fun b hb => ?_,
      List.filter_eq_nil_iff.2 fun b hb => ?_, sum_makerBookings]
    · exact Nat.add_zero _
    · rw [decide_eq_true_eq, htakers b hb]
      exact (Bool.not_ne_self _).symm
    · rw [decide_eq_true_eq]
      exact hmakers b hb

theorem booked_evenly (ho : o.Fresh) (hkeyed : ∀ q ∈ s.known, (s.run.orders q).key = key)
    (hkey : o.key = key) (name : List UInt8) : bookedOn u.orders name true out.bookings =
      bookedOn u.orders name false out.bookings := by
  have hkeys : ∀ b ∈ out.bookings, (u.orders b.order).key = key := fun b hb =>
    booked_keys ha h hp hkeyed hkey hb
  have hall : ∀ side, bookedOn u.orders name side out.bookings =
      if key = name then volume out.fills else 0 := by
    intro side
    rw [← booked_units ha h hp ho side, bookedOn]
    split
    · rename_i hname
      rw [List.filter_congr fun b hb => ?_]
      · rfl
      · simp only [hkeys b hb, hname, true_and]
    · rename_i hname
      rw [List.filter_eq_nil_iff.2 fun b hb => ?_]
      · rfl
      · simp only [hkeys b hb, hname, false_and, decide_false, Bool.false_eq_true, not_false_eq_true]
  rw [hall, hall]

end Bookings

theorem submitted_cons (c : List UInt64) (hself : (t.orders p).isBuy = o.isBuy)
    (hsame : ∀ q ∈ s.known, (t.orders q).isBuy = (s.run.orders q).isBuy) :
    submitted ⟨t, p :: s.known, c⟩ o.isBuy = p :: s.submitted o.isBuy ∧
    submitted ⟨t, p :: s.known, c⟩ (!o.isBuy) = s.submitted (!o.isBuy) := by
  have hold : ∀ side, (s.known.filter fun q => (t.orders q).isBuy = side) = s.submitted side :=
    fun side => List.filter_congr fun q hq => by rw [hsame q hq]
  constructor
  · rw [← hold]
    exact List.filter_cons_of_pos (decide_eq_true hself)
  · rw [← hold]
    apply List.filter_cons_of_neg
    rw [decide_eq_true_eq]
    exact fun he => Bool.not_ne_self _ (he.symm.trans hself)

theorem filledOf_cons (orders : OrderHeap) (p : OrderPtr) (ps : List OrderPtr) :
    filledOf orders (p :: ps) = (orders p).filledQuantity.toNat + filledOf orders ps :=
  List.sum_cons

theorem sides_iff (side : Bool) :
    filledOf s.run.orders (s.submitted true) = filledOf s.run.orders (s.submitted false) ↔
    filledOf s.run.orders (s.submitted side) = filledOf s.run.orders (s.submitted (!side)) := by
  cases side
  · exact eq_comm
  · exact Iff.rfl

section Process

variable (hc : Conserved key s) (hk : (book ⟨t, p :: s.known, c⟩).Kept) (hp : p ∉ s.known)
  (ho : o.Fresh) (hkey : o.key = key)
include hc hk hp ho hkey

theorem Conserved.refuse (hr : EngineRun.Refuses p (s.call p o) out t) :
    Conserved key ⟨t, p :: s.known, c⟩ := by
  have hwrite := refuses_orders hr
  have hself : t.orders p = { o with status := .REJECTED } := by
    rw [hwrite, Session.write_self]
  have hsame : ∀ q ∈ s.known, t.orders q = s.run.orders q := fun q hq => by
    rw [hwrite, Session.write_known hp _ hq]
    rfl
  obtain ⟨hown, hother⟩ := submitted_cons c (show (t.orders p).isBuy = o.isBuy by rw [hself]; rfl)
    fun q hq => by rw [hsame q hq]
  have hfilled : ∀ side, filledOf t.orders (s.submitted side) =
      filledOf s.run.orders (s.submitted side) := fun side =>
    filledOf_congr fun q hq => by rw [hsame q (mem_submitted.1 hq).1]
  refine ⟨hk, List.nodup_cons.2 ⟨hp, hc.nodup⟩, fun q hq => ?_, fun q hq => ?_, ?_, ?_⟩
  · rcases List.mem_cons.1 hq with rfl | hq
    · change (t.orders q).key = key
      rw [hself]
      exact hkey
    · exact (congrArg Order.key (hsame q hq)).trans (hc.keyed q hq)
  · rcases List.mem_cons.1 hq with rfl | hq
    · change (t.orders q).Whole
      rw [hself]
      exact ho.whole
    · exact (congrArg Order.Whole (hsame q hq)).mpr (hc.whole q hq)
  · rw [sides_iff o.isBuy, hown, hother]
    change filledOf t.orders _ = filledOf t.orders _
    rw [filledOf_cons, hfilled, hfilled, hself, (sides_iff o.isBuy).1 hc.sides]
    change o.filledQuantity.toNat + _ = _
    rw [ho.filled]
    exact Nat.zero_add _
  · change ∃ pm, t.shared.positionManager = some pm ∧ _
    rw [hr.positions]
    exact hc.booked

theorem Conserved.accept (ha : EngineRun.Accepts p (s.call p o) u out t) :
    Conserved key ⟨t, p :: s.known, c⟩ := by
  obtain ⟨hown, hother⟩ := submitted_cons c
    (show (t.orders p).isBuy = o.isBuy by
      rw [accepts_self ha hc.kept hp (g := Order.isBuy) (fun _ _ => rfl) fun _ _ => rfl,
        Order.toLimit_static (g := Order.isBuy) fun _ _ _ => rfl])
    fun q hq => accepts_known ha hc.kept hp (g := Order.isBuy) (fun _ _ => rfl) hq
  obtain ⟨hgrown, hgrown'⟩ := submitted_grown ha hc.kept hp ho hc.whole hc.nodup
  refine ⟨hk, List.nodup_cons.2 ⟨hp, hc.nodup⟩, fun q hq => ?_, fun q hq =>
    accepts_whole ha hc.kept hp ho hc.whole hq, ?_, ?_⟩
  · rcases List.mem_cons.1 hq with rfl | hq
    · refine (accepts_self ha hc.kept hp (g := Order.key) (fun _ _ => rfl) fun _ _ => rfl).trans ?_
      rw [Order.toLimit_static (g := Order.key) fun _ _ _ => rfl, hkey]
    · exact (accepts_known ha hc.kept hp (g := Order.key) (fun _ _ => rfl)
        hq).trans (hc.keyed q hq)
  · rw [sides_iff o.isBuy, hown, hother]
    change filledOf t.orders _ = filledOf t.orders _
    rw [filledOf_cons, hgrown, hgrown', accepts_filled_self ha hc.kept hp ho,
      (sides_iff o.isBuy).1 hc.sides, Nat.add_comm]
  · obtain ⟨pm, hpm, hbooked⟩ := hc.booked
    refine ⟨pm.book u.orders out.bookings, ?_, fun name => ?_⟩
    · change t.shared.positionManager = _
      rw [ha.positions]
      change s.run.shared.positionManager.map _ = _
      rw [hpm]
      rfl
    · obtain ⟨hnet, hbought, hsold⟩ := PositionManager.book_totals u.orders out.bookings pm name
      obtain ⟨hzero, heven⟩ := hbooked name
      have hsame := booked_evenly ha hc.kept hp ho hc.keyed hkey name
      rw [hnet, hbought, hsold, hzero, heven, hsame]
      refine ⟨?_, rfl⟩
      have hcancel : ∀ a : Int64, 0 + a - a = 0 := by grind
      exact hcancel _

end Process

theorem cancel_static (h : s.book.Kept) (id : UInt64) {g : Order → α}
    (hg : ∀ o, g o.cancel = g o) (q : OrderPtr) :
    g ((s.run.cancelOrder id).2.orders q) = g (s.run.orders q) :=
  OrderBook.Kept.cancel_static h id hg q

theorem Conserved.cancel (hc : Conserved key s) (id : UInt64)
    (hk : (book ⟨(s.run.cancelOrder id).2, s.known, c⟩).Kept) :
    Conserved key ⟨(s.run.cancelOrder id).2, s.known, c⟩ := by
  have hsub : ∀ side, submitted ⟨(s.run.cancelOrder id).2, s.known, c⟩ side =
      s.submitted side := fun side =>
    List.filter_congr fun q _ => by
      rw [cancel_static hc.kept id (g := Order.isBuy) fun _ => rfl]
  have hfilled : ∀ ps, filledOf (s.run.cancelOrder id).2.orders ps = filledOf s.run.orders ps :=
    fun ps => filledOf_congr fun q _ =>
      cancel_static hc.kept id (g := Order.filledQuantity) (fun _ => rfl) q
  refine ⟨hk, hc.nodup, fun q hq => ?_, fun q hq => ?_, ?_, hc.booked⟩
  · exact (cancel_static hc.kept id (g := Order.key) (fun _ => rfl) q).trans (hc.keyed q hq)
  · exact (cancel_static hc.kept id (g := Order.Whole) (fun _ => rfl) q).mpr (hc.whole q hq)
  · rw [hsub, hsub, hfilled, hfilled]
    exact hc.sides

theorem Conserved.step (hc : Conserved key s) (hs : Step s e s') (he : e.Carries key) :
    Conserved key s' := by
  have hk := hs.kept hc.kept
  cases hs with
  | @process p o out t hp hid ho h =>
    rcases EngineRun.processOrder_cases h with ⟨-, hr⟩ | ⟨-, u, ha⟩
    · exact hc.refuse hk hp ho he hr
    · exact hc.accept hk hp ho he ha
  | cancel id =>
    exact hc.cancel id hk

theorem conserved_start {shared : Collaborators} (symbol : List UInt8)
    (hpm : shared.positionManager = some {}) : Conserved key (start symbol shared) where
  kept := kept_start symbol shared
  nodup := List.nodup_nil
  keyed := fun q hq => by cases hq
  whole := fun q hq => by cases hq
  sides := rfl
  booked := ⟨{}, hpm, fun name => ⟨rfl, rfl⟩⟩

theorem conserved_of_runs {symbol : List UInt8} {shared : Collaborators}
    (hpm : shared.positionManager = some {}) (h : Runs Step (start symbol shared) ts s)
    (hkey : ∀ x ∈ ts, x.2.1.Carries key) : Conserved key s :=
  h.invariant_of (C := fun x => x.2.1.Carries key) (conserved_start symbol hpm)
    (fun _ _ _ hc hs he => hc.step hs he) hkey

/-- No run of an engine makes, loses or misbooks a unit. -/
theorem quantities_conserved {symbol : List UInt8} {shared : Collaborators}
    (hpm : shared.positionManager = some {}) (h : Runs Step (start symbol shared) ts s)
    (hkey : ∀ x ∈ ts, x.2.1.Carries (trimSpaces symbol)) :
    (∀ q ∈ s.known, (s.run.orders q).filledQuantity.toNat +
      (s.run.orders q).remainingQuantity.toNat = (s.run.orders q).quantity.toNat) ∧
    (∀ u p o out t, (u, EngineEvent.process p o out, t) ∈ ts →
      (t.run.orders p).filledQuantity.toNat = (out.fills.map fun f => f.quantity.toNat).sum ∧
      filledOf t.run.orders u.known =
        filledOf u.run.orders u.known + (t.run.orders p).filledQuantity.toNat) ∧
    filledOf s.run.orders (s.submitted true) = filledOf s.run.orders (s.submitted false) ∧
    ∃ pm, s.run.shared.positionManager = some pm ∧ ∀ name,
      (pm.position name).netPosition = 0 ∧
      (pm.position name).totalBought = (pm.position name).totalSold := by
  have hc := conserved_of_runs hpm h hkey
  refine ⟨hc.whole, fun u p o out t hmem => ?_, hc.sides, hc.booked⟩
  obtain ⟨hs, us, hus, hsub⟩ := h.of_mem hmem
  have hu := conserved_of_runs hpm hus fun x hx => hkey x (hsub x hx)
  cases hs with
  | @process _ _ _ t hp hid ho hprocess =>
    rcases EngineRun.processOrder_cases hprocess with ⟨-, hr⟩ | ⟨-, v, ha⟩
    · have hself : (t.orders p).filledQuantity.toNat = 0 := by
        rw [refuses_orders hr, Session.write_self]
        change o.filledQuantity.toNat = 0
        rw [ho.filled]
        rfl
      refine ⟨?_, ?_⟩
      · rw [hr.outcome]
        exact hself
      · change filledOf t.orders _ = _ + (t.orders p).filledQuantity.toNat
        rw [hself]
        apply filledOf_congr
        intro q hq
        rw [refuses_orders hr, Session.write_known hp _ hq]
        rfl
    · have hself := accepts_filled_self ha hu.kept hp ho
      refine ⟨hself.trans (volume_eq_sum _), ?_⟩
      change filledOf t.orders _ = _ + (t.orders p).filledQuantity.toNat
      rw [hself]
      exact resting_grown ha hu.kept hp ho hu.whole hu.nodup

/-- A market order sweeps two levels and a cancel takes the rest. -/
theorem quantities_conserved_sweep : ∃ ts s,
    Runs Step (start [] { positionManager := some {} }) ts s ∧
    filledOf s.run.orders (s.submitted true) = 7 ∧
    filledOf s.run.orders (s.submitted true) = filledOf s.run.orders (s.submitted false) := by
  obtain ⟨ts, s, hr, hok⟩ := exists_run [] { positionManager := some {} }
    [.process 1 (.limit 1 .SELL 101 5), .process 2 (.limit 2 .SELL 102 4),
      .process 3 { Order.limit 3 .BUY 0 7 with type := .MARKET }, .cancel 2]
    (fun ts s => ts.all (fun x => x.2.1.Carries (trimSpaces [])) &&
      filledOf s.run.orders (s.submitted true) = 7) (by decide +kernel)
  rw [Bool.and_eq_true, List.all_eq_true] at hok
  exact ⟨ts, s, hr, of_decide_eq_true hok.2,
    (quantities_conserved rfl hr fun x hx => of_decide_eq_true (hok.1 x hx)).2.2.1⟩

end EngineSession

end Velox
