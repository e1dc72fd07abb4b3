import Velox.ProfitAndLoss
import Velox.EngineLocality
import Velox.Conservation

namespace Velox
set_option autoImplicit true

open AverageCost Greedy OrderBook

/-- A fill as it is entered for a name, in whole numbers. -/
structure LedgerEntry where
  key : List UInt8
  isBuy : Bool
  quantity : ℕ
  price : ℤ
  deriving DecidableEq

/-- An account for every name, kept without any limit on its numbers. -/
abbrev Ledger := List UInt8 → Account ℤ

namespace LedgerEntry

/-- A buy moves the average price, rounded down; a sell locks in its profit. -/
def post (e : LedgerEntry) (a : Account ℤ) : Account ℤ :=
  if e.isBuy then
    a.buy (e.quantity : ℤ)
      ((a.avg * a.bought + e.price * e.quantity) / (a.bought + e.quantity))
  else a.sell (e.quantity : ℤ) e.price

/-- Neither the shares nor the value of the entry are too many. -/
def Bounded (e : LedgerEntry) (a : Account ℤ) : Prop :=
  if e.isBuy then
    a.bought + e.quantity < 2 ^ 32 ∧
      (a.bought = 0 ∨ e.price * e.quantity < 2 ^ 63 ∧
        a.avg * a.bought + e.price * e.quantity < 2 ^ 64)
  else
    a.sold + e.quantity < 2 ^ 32 ∧ FitsInt64 ((e.price - a.avg) * e.quantity) ∧
      FitsInt64 (a.realized + (e.price - a.avg) * e.quantity)

instance (e : LedgerEntry) (a : Account ℤ) : Decidable (e.Bounded a) := by
  unfold Bounded
  infer_instance

end LedgerEntry

namespace Ledger

def blank : Ledger := fun _ => ⟨0, 0, 0, 0⟩

def enter (l : Ledger) (e : LedgerEntry) : Ledger := Function.update l e.key (e.post (l e.key))

/-- Every entry of a list is bounded when its turn comes. -/
def Takes (l : Ledger) : List LedgerEntry → Prop
  | [] => True
  | e :: es => e.Bounded (l e.key) ∧ (l.enter e).Takes es

instance decidableTakes : (es : List LedgerEntry) → (l : Ledger) → Decidable (l.Takes es)
  | [], _ => isTrue trivial
  | e :: es, l =>
    have := decidableTakes es (l.enter e)
    inferInstanceAs (Decidable (_ ∧ _))

end Ledger

structure Position.Agrees (pos : Position) (a : Account ℤ) : Prop where
  account : pos.account = a
  sold : (pos.totalSold.toNat : ℤ) = a.sold

def PositionUpdate.entry (c : PositionUpdate) : LedgerEntry :=
  ⟨c.order.key, c.order.isBuy, c.fillQuantity.toNat, c.fillPrice.toInt⟩

/-- No operation of the calls overflows, each leaves the record of its symbol with the exact numbers,
and a record says that nothing was bought when nothing was. -/
def PositionManager.Exact (pm : PositionManager) (l : Ledger) : List PositionUpdate → Prop
  | [] => True
  | c :: cs =>
    (pm.position c.order.key).UpdateFits c ∧
      ((pm.position c.order.key).totalBought = 0 ↔ (l c.order.key).bought = 0) ∧
      ((pm.updatePosition (some c.order) c.fillQuantity c.fillPrice).position c.order.key).Agrees
        (l.enter c.entry c.order.key) ∧
      (pm.updatePosition (some c.order) c.fillQuantity c.fillPrice).Exact (l.enter c.entry) cs

instance (pos : Position) (a : Account ℤ) : Decidable (pos.Agrees a) :=
  decidable_of_iff (pos.account = a ∧ (pos.totalSold.toNat : ℤ) = a.sold)
    ⟨fun h => ⟨h.1, h.2⟩, fun h => ⟨h.account, h.sold⟩⟩

instance PositionManager.decidableExact : (cs : List PositionUpdate) → (pm : PositionManager) →
    (l : Ledger) → Decidable (pm.Exact l cs)
  | [], _, _ => isTrue trivial
  | c :: cs, pm, l =>
    have := decidableExact cs (pm.updatePosition (some c.order) c.fillQuantity c.fillPrice)
      (l.enter c.entry)
    inferInstanceAs (Decidable (_ ∧ _ ∧ _ ∧ _))

section Record
variable {pos : Position} {a : Account ℤ} {c : PositionUpdate} {q : UInt32} {x : Int64}

theorem LedgerEntry.post_avg (e : LedgerEntry) (ha : 0 ≤ a.avg) (hb : 0 ≤ a.bought)
    (hx : 0 ≤ e.price) : 0 ≤ (e.post a).avg := by
  have hq : (0 : ℤ) ≤ e.quantity := Int.natCast_nonneg _
  rw [post]
  split
  · exact Int.ediv_nonneg (add_nonneg (mul_nonneg ha hb) (mul_nonneg hx hq)) (add_nonneg hb hq)
  · exact ha

namespace Position.Agrees

theorem bought (h : pos.Agrees a) : a.bought = pos.totalBought.toNat :=
  (congrArg Account.bought h.account).symm

theorem avg (h : pos.Agrees a) : a.avg = pos.avgEntryPrice.toInt :=
  (congrArg Account.avg h.account).symm

theorem net (h : pos.Agrees a) : pos.netPosition.toInt = a.bought - a.sold := by
  rw [Account.sold, sub_sub_cancel]
  exact congrArg Account.net h.account

theorem unbought_iff (h : pos.Agrees a) : pos.totalBought = 0 ↔ a.bought = 0 := by
  rw [h.bought, ← UInt32.toNat_inj, Int.natCast_eq_zero]
  rfl

/-- The net position does not overflow before a counter does. -/
theorem buyFits_iff (h : pos.Agrees a) (ha : 0 ≤ a.avg) (hx : 0 ≤ x.toInt) :
    pos.BuyFits q x ↔ a.bought + q.toNat < 2 ^ 32 ∧ (a.bought = 0 ∨
      x.toInt * q.toNat < 2 ^ 63 ∧ a.avg * a.bought + x.toInt * q.toNat < 2 ^ 64) := by
  have hs := pos.totalSold.toNat_lt
  have hold : 0 ≤ a.avg * a.bought := by
    rw [h.bought]
    exact mul_nonneg ha (Int.natCast_nonneg _)
  have hnew : 0 ≤ x.toInt * q.toNat := mul_nonneg hx (Int.natCast_nonneg _)
  rw [BuyFits, AverageFits, h.net, ← h.sold, h.unbought_iff, ← h.avg, ← h.bought]
  have hbought := h.bought
  simp only [FitsInt64, FitsUInt64]
  omega

theorem sellFits_iff (h : pos.Agrees a) (ha : 0 ≤ a.avg) (hx : 0 ≤ x.toInt) :
    pos.SellFits q x ↔ a.sold + q.toNat < 2 ^ 32 ∧ FitsInt64 ((x.toInt - a.avg) * q.toNat) ∧
      FitsInt64 (a.realized + (x.toInt - a.avg) * q.toNat) := by
  have hb := pos.totalBought.toNat_lt
  have havg : a.avg < 2 ^ 63 := h.avg ▸ Int64.toInt_lt _
  have hprice := Int64.toInt_lt x
  have hpnl : pos.realizedPnl.toInt = a.realized := congrArg Account.realized h.account
  rw [SellFits, h.net, hpnl, ← h.avg]
  have hbought := h.bought
  have hsold := h.sold
  simp only [FitsInt64]
  omega

theorem fits_iff (h : pos.Agrees a) (ha : 0 ≤ a.avg) (hx : 0 ≤ c.fillPrice.toInt) :
    pos.UpdateFits c ↔ c.entry.Bounded a := by
  rw [UpdateFits, LedgerEntry.Bounded]
  by_cases hb : c.order.isBuy = true
  · rw [if_pos hb, if_pos (show c.entry.isBuy = true from hb)]
    exact h.buyFits_iff ha hx
  · rw [if_neg hb, if_neg (show ¬ c.entry.isBuy = true from hb)]
    exact h.sellFits_iff ha hx

theorem update (h : pos.Agrees a) (ha : 0 ≤ a.avg) (hx : 0 ≤ c.fillPrice.toInt)
    (hq : 0 < c.fillQuantity.toNat) (hf : pos.UpdateFits c) :
    (pos.update c).Agrees (c.entry.post a) := by
  have hpos : 0 ≤ pos.avgEntryPrice.toInt := h.avg ▸ ha
  rw [UpdateFits] at hf
  rw [Position.update, LedgerEntry.post]
  by_cases hb : c.order.isBuy = true
  · rw [if_pos hb] at hf
    rw [if_pos hb, if_pos (show c.entry.isBuy = true from hb)]
    refine ⟨?_, ?_⟩
    · rw [account_buy hf hx hpos hq, weightedSum, h.account, ← h.avg, Nat.cast_add, ← h.bought]
      rfl
    · rw [Account.sold_buy, ← h.sold]
      rfl
  · rw [if_neg hb] at hf
    rw [if_neg hb, if_neg (show ¬ c.entry.isBuy = true from hb)]
    refine ⟨?_, ?_⟩
    · rw [account_sell hf, h.account]
      rfl
    · rw [Account.sold_sell, ← h.sold, (sell_exact hf).2.2]
      exact Nat.cast_add _ _

end Position.Agrees

end Record

section Calls
variable {pm : PositionManager} {l : Ledger} {c : PositionUpdate} {cs : List PositionUpdate}

structure PositionManager.Follows (pm : PositionManager) (l : Ledger) : Prop where
  agrees : ∀ key, (pm.position key).Agrees (l key)
  avg : ∀ key, 0 ≤ (l key).avg

/-- What the engine sends: some shares, at a price that is not negative. -/
structure PositionUpdate.Proper (c : PositionUpdate) : Prop where
  filled : 0 < c.fillQuantity.toNat
  priced : 0 ≤ c.fillPrice.toInt

namespace PositionManager.Follows

theorem start : Follows {} Ledger.blank :=
  ⟨fun _ => ⟨rfl, rfl⟩, fun _ => le_rfl⟩

theorem position_self (pm : PositionManager) (hc : c.Proper) :
    (pm.updatePosition (some c.order) c.fillQuantity c.fillPrice).position c.order.key =
      (pm.position c.order.key).update c := by
  have hne : c.fillQuantity ≠ 0 := fun he => by
    have := hc.filled
    rw [he] at this
    exact absurd this (lt_irrefl 0)
  rw [position_update, if_pos ⟨rfl, hne⟩]
  rfl

theorem agrees_self (h : pm.Follows l) (hc : c.Proper)
    (hf : (pm.position c.order.key).UpdateFits c) :
    ((pm.updatePosition (some c.order) c.fillQuantity c.fillPrice).position c.order.key).Agrees
      (l.enter c.entry c.order.key) := by
  rw [position_self pm hc, Ledger.enter]
  simp only [PositionUpdate.entry, Function.update_self]
  exact (h.agrees _).update (h.avg _) hc.priced hc.filled hf

theorem step (h : pm.Follows l) (hc : c.Proper) (hf : (pm.position c.order.key).UpdateFits c) :
    (pm.updatePosition (some c.order) c.fillQuantity c.fillPrice).Follows (l.enter c.entry) := by
  refine ⟨fun key => ?_, fun key => ?_⟩
  · by_cases hk : key = c.order.key
    · rw [hk]
      exact h.agrees_self hc hf
    · rw [position_update, if_neg fun hk' => hk hk'.1.symm]
      have hsame : l.enter c.entry key = l key := Function.update_of_ne hk _ _
      rw [hsame]
      exact h.agrees key
  · by_cases hk : key = c.order.key
    · have hself : l.enter c.entry key = c.entry.post (l key) := by
        rw [hk]
        exact Function.update_self _ _ _
      have hbought : 0 ≤ (l key).bought := (h.agrees key).bought ▸ Int.natCast_nonneg _
      rw [hself]
      exact c.entry.post_avg (h.avg key) hbought hc.priced
    · have hsame : l.enter c.entry key = l key := Function.update_of_ne hk _ _
      rw [hsame]
      exact h.avg key

/-- The calls are exact when their entries are bounded, and the records then follow the accounts. -/
theorem exact_iff (h : pm.Follows l) (hcs : ∀ c ∈ cs, c.Proper) :
    (pm.Exact l cs ↔ l.Takes (cs.map PositionUpdate.entry)) ∧
      (pm.Exact l cs → (pm.record cs).Follows ((cs.map PositionUpdate.entry).foldl Ledger.enter l)) := by
  induction cs generalizing pm l with
  | nil => exact ⟨Iff.rfl, fun _ => h⟩
  | cons c cs ih =>
    have hc := hcs c List.mem_cons_self
    have hrest := fun d hd => hcs d (List.mem_cons_of_mem _ hd)
    have hfits := (h.agrees c.order.key).fits_iff (c := c) (h.avg _) hc.priced
    refine ⟨⟨fun ⟨hf, _, _, he⟩ => ?_, fun ⟨hb, ht⟩ => ?_⟩, fun ⟨hf, _, _, he⟩ => ?_⟩
    · exact ⟨hfits.1 hf, (ih (h.step hc hf) hrest).1.1 he⟩
    · have hf := hfits.2 hb
      exact ⟨hf, (h.agrees _).unbought_iff, h.agrees_self hc hf,
        (ih (h.step hc hf) hrest).1.2 ht⟩
    · exact (ih (h.step hc hf) hrest).2 he

end PositionManager.Follows

end Calls

def Order.entry (o : Order) (n : ℕ) : LedgerEntry := ⟨o.key, o.isBuy, n, o.price.toInt⟩

/-- The fills that an order is to get from the live orders of the other side, each entered at its own
price, and the order with all of them at its limit. -/
def EngineSession.entries (s : EngineSession) (o : Order) : List LedgerEntry :=
  let taken := (consume (within s.run.orders o.isBuy o.toLimit.price) o.quantity.toNat
    (s.book.book.sideQueue s.run.orders (!o.isBuy))).taken
  taken.map (fun x => (s.run.orders x.1).entry x.2) ++
    if total taken = 0 then [] else [o.toLimit.entry (total taken)]

def updatesOf (orders : OrderHeap) (bs : List Booking) : List PositionUpdate :=
  bs.map fun b => ⟨orders b.order, b.quantity, b.price⟩

namespace EngineSession

variable {s : EngineSession} {p q : OrderPtr} {o : Order} {t : EngineRun} {u : BookRun}
  {out : Outcome}

section Accepts

variable (ha : EngineRun.Accepts p (s.call p o) u out t) (h : s.book.Kept) (hp : p ∉ s.known)
include ha h hp

theorem accepts_entry_known (hq : q ∈ s.known) (n : ℕ) :
    (t.orders q).entry n = (s.run.orders q).entry n :=
  accepts_known ha h hp (g := fun o => o.entry n) (fun _ _ => rfl) hq

theorem accepts_entry_self (n : ℕ) : (t.orders p).entry n = o.toLimit.entry n :=
  accepts_self ha h hp (g := fun o => o.entry n) (fun _ _ => rfl) fun _ _ => rfl

theorem maker_entries :
    (updatesOf t.orders (makerBookings u.orders u.fills)).map PositionUpdate.entry =
      (out.fills.map Fill.pair).map fun x => (s.run.orders x.1).entry x.2 := by
  obtain ⟨-, -, hmakers⟩ := accepts_fills ha h hp
  rw [ha.outcome] at hmakers ⊢
  simp only [updatesOf, makerBookings, List.map_map]
  refine List.map_congr_left fun f hf => ?_
  have hentry := accepts_entry_known ha h hp (hmakers f hf).1 f.quantity.toNat
  have hprice := (accepts_same ha f.order).2.1
  simp only [Function.comp_apply, Fill.pair, PositionUpdate.entry]
  rw [← hentry, Order.entry, hprice]

theorem taker_entries (ho : o.Fresh) :
    (updatesOf t.orders (takerBookings u.orders p)).map PositionUpdate.entry =
      if volume out.fills = 0 then [] else [o.toLimit.entry (volume out.fills)] := by
  have hfilled := accepts_filled_self ha h hp ho
  rw [accepts_static ha (g := Order.filledQuantity) fun _ _ => rfl] at hfilled
  have hentry := accepts_entry_self ha h hp (volume out.fills)
  have hprice := (accepts_same ha p).2.1
  simp only [updatesOf, takerBookings, gt_iff_lt, UInt32.lt_iff_toNat_lt, hfilled]
  by_cases hz : volume out.fills = 0
  · rw [if_pos hz, if_neg (by rw [hz]; exact lt_irrefl _)]
    rfl
  · rw [if_neg hz, if_pos (by exact Nat.pos_of_ne_zero hz)]
    simp only [List.map_cons, List.map_nil, PositionUpdate.entry]
    rw [hfilled, ← hentry, Order.entry, hprice]

theorem accepts_entries (ho : o.Fresh) :
    (updatesOf t.orders out.bookings).map PositionUpdate.entry = s.entries o := by
  have hvolume : total (out.fills.map Fill.pair) = volume out.fills := rfl
  have hbookings : out.bookings = makerBookings u.orders u.fills ++ takerBookings u.orders p :=
    congrArg Outcome.bookings ha.outcome
  have htaken := accepts_taken ha h hp
  rw [ho.remaining] at htaken
  rw [entries, htaken, hvolume, ← maker_entries ha h hp, ← taker_entries ha h hp ho, hbookings,
    updatesOf, List.map_append, List.map_append]
  rfl

end Accepts

end EngineSession

/-- An engine session with exact accounts of what was booked. -/
structure PositionSession where
  session : EngineSession
  ledger : Ledger := Ledger.blank

namespace PositionSession

/-- What a call of `process_order` books, with the orders as it leaves them. -/
def calls (t : EngineRun) (out : Outcome) : List PositionUpdate := updatesOf t.orders out.bookings

/-- One call of `process_order` with a fresh order that passes the risk check, or of `cancel_order`. -/
inductive Step : PositionSession → EngineEvent → PositionSession → Prop
  | process {s : PositionSession} {p : OrderPtr} {o : Order} {out : Outcome} {t : EngineRun}
      (hp : p ∉ s.session.known) (ho : o.Fresh) (hacc : out.accepted = true)
      (h : (s.session.call p o).processOrder p = some (out, t)) :
      Step s (.process p o out) ⟨⟨t, p :: s.session.known, s.session.closed⟩,
        ((calls t out).map PositionUpdate.entry).foldl Ledger.enter s.ledger⟩
  | cancel {s : PositionSession} (id : UInt64) :
      Step s (.cancel id (s.session.run.cancelOrder id).1)
        ⟨⟨(s.session.run.cancelOrder id).2, s.session.known, s.session.closed⟩, s.ledger⟩

def start (symbol : List UInt8) (shared : Collaborators) : PositionSession :=
  ⟨EngineSession.start symbol shared, Ledger.blank⟩

/-- The step makes exact calls of `update_position`, and these are all that happens to the records. -/
def BooksExactly (s : PositionSession) (e : EngineEvent) (t : PositionSession) : Prop :=
  ∃ pm, s.session.run.shared.positionManager = some pm ∧
    match e with
    | .process _ _ out => pm.Exact s.ledger (calls t.session.run out) ∧
        t.session.run.shared.positionManager = some (pm.record (calls t.session.run out))
    | .cancel .. => t.session.run.shared.positionManager = some pm

/-- The accounts stay within the widths of the records, whatever the order is to be filled with. -/
def StaysBounded (s : PositionSession) : EngineEvent → Prop
  | .process _ o _ => s.ledger.Takes (s.session.entries o)
  | .cancel .. => True

instance (s : PositionSession) : DecidablePred s.StaysBounded := fun e => by
  cases e <;> unfold StaysBounded <;> infer_instance

/-- The records follow the accounts, and no order has a negative price. -/
structure Sound (s : PositionSession) : Prop where
  kept : s.session.book.Kept
  checked : ∃ risk, s.session.run.shared.riskManager = some risk
  priced : ∀ q ∈ s.session.known, 0 ≤ (s.session.run.orders q).price.toInt
  followed : ∃ pm, s.session.run.shared.positionManager = some pm ∧ pm.Follows s.ledger

variable {s s' : PositionSession} {e : EngineEvent} {p q : OrderPtr} {o : Order} {t : EngineRun}
  {u : BookRun} {out : Outcome}

theorem price_of_checked {r : RiskManager} (h : r.checkOrder (some o) = true) :
    0 ≤ o.toLimit.price.toInt := by
  have hprice : 0 ≤ o.price.toInt := by
    rw [RiskManager.checkOrder] at h
    split_ifs at h with _ _ hneg
    exact Int.not_lt.1 fun hlt => hneg (Int64.lt_iff_toInt_lt.2 hlt)
  rw [Order.toLimit]
  split
  · change 0 ≤ (if o.isBuy then Int64.maxValue else 0).toInt
    cases o.isBuy <;> decide
  · exact hprice

theorem Sound.start {symbol : List UInt8} {shared : Collaborators} {risk : RiskManager}
    (hrisk : shared.riskManager = some risk) (hpm : shared.positionManager = some {}) :
    (start symbol shared).Sound where
  kept := EngineSession.kept_start symbol shared
  checked := ⟨risk, hrisk⟩
  priced := fun q hq => by cases hq
  followed := ⟨{}, hpm, PositionManager.Follows.start⟩

section Process

variable (hs : s.Sound) (hp : p ∉ s.session.known) (ho : o.Fresh)
  (ha : EngineRun.Accepts p (s.session.call p o) u out t)
include hs hp ha

theorem Sound.priced_after (hrisk : (s.session.call p o).shared.checkRisk o = true)
    (hq : q ∈ p :: s.session.known) : 0 ≤ (t.orders q).price.toInt := by
  obtain ⟨risk, hr⟩ := hs.checked
  rcases List.mem_cons.1 hq with rfl | hq
  · rw [EngineSession.accepts_self ha hs.kept hp (g := Order.price) (fun _ _ => rfl) fun _ _ => rfl]
    refine price_of_checked (r := risk) ?_
    have hcall : (s.session.call q o).shared.riskManager = some risk := hr
    rw [← hrisk, Collaborators.checkRisk, hcall]
  · rw [EngineSession.accepts_known ha hs.kept hp (g := Order.price) (fun _ _ => rfl) hq]
    exact hs.priced q hq

theorem Sound.calls_proper (hprices : ∀ q ∈ p :: s.session.known, 0 ≤ (t.orders q).price.toInt) :
    ∀ c ∈ calls t out, c.Proper := by
  obtain ⟨-, hfair, hmakers⟩ := EngineSession.accepts_fills ha hs.kept hp
  have hfills : u.fills = out.fills := (congrArg Outcome.fills ha.outcome).symm
  intro c hc
  obtain ⟨b, hb, rfl⟩ := List.mem_map.1 hc
  rw [congrArg Outcome.bookings ha.outcome] at hb
  rcases List.mem_append.1 hb with hb | hb
  · obtain ⟨f, hf, rfl⟩ := List.mem_map.1 hb
    rw [hfills] at hf
    refine ⟨hfair.quantity_pos hf, ?_⟩
    rw [← (EngineSession.accepts_same ha f.order).2.1]
    exact hprices _ (List.mem_cons_of_mem _ (hmakers f hf).1)
  · rw [takerBookings] at hb
    split at hb
    · rename_i hpos
      rw [List.mem_singleton.1 hb]
      refine ⟨UInt32.lt_iff_toNat_lt.1 hpos, ?_⟩
      rw [← (EngineSession.accepts_same ha p).2.1]
      exact hprices p List.mem_cons_self
    · cases hb

omit hs hp in
theorem positions_after {pm : PositionManager}
    (hpm : s.session.run.shared.positionManager = some pm) :
    t.shared.positionManager = some (pm.record (calls t out)) := by
  have hkey : ∀ q, (u.orders q).key = (t.orders q).key := fun q =>
    (EngineSession.accepts_static ha (g := Order.key) (fun _ _ => rfl) q).symm
  have hside : ∀ q, (u.orders q).isBuy = (t.orders q).isBuy := fun q =>
    (EngineSession.accepts_static ha (g := Order.isBuy) (fun _ _ => rfl) q).symm
  rw [ha.positions]
  change s.session.run.shared.positionManager.map _ = _
  rw [hpm, Option.map_some, PositionManager.book_congr (fun b _ => hkey b.order) fun b _ =>
    hside b.order, PositionManager.record, calls, updatesOf, List.foldl_map]
  rfl

end Process

theorem Step.sound_iff (h : Step s e s') (hs : s.Sound) :
    (BooksExactly s e s' ↔ s.StaysBounded e) ∧ (s.StaysBounded e → s'.Sound) := by
  obtain ⟨pm, hpm, hfollows⟩ := hs.followed
  cases h with
  | @process p o out t hp ho hacc h =>
    have hk := EngineSession.process_kept hs.kept hp ho h
    have hrisk' := EngineRun.processOrder_risk h
    rcases EngineRun.processOrder_cases h with ⟨-, hr⟩ | ⟨hrisk, u, ha⟩
    · rw [hr.outcome] at hacc
      cases hacc
    · rw [EngineSession.call_self] at hrisk
      have hprices := fun q hq => hs.priced_after hp ha (q := q) hrisk hq
      have hentries := EngineSession.accepts_entries ha hs.kept hp ho
      obtain ⟨hiff, hthen⟩ := hfollows.exact_iff (hs.calls_proper hp ha hprices)
      rw [calls, hentries] at hiff
      have hpos := positions_after ha hpm
      refine ⟨⟨?_, fun hb => ⟨pm, hpm, hiff.2 hb, hpos⟩⟩, fun hb => ⟨hk, ?_, hprices, ?_⟩⟩
      · rintro ⟨pm', hpm', hexact, -⟩
        obtain rfl := Option.some.inj (hpm.symm.trans hpm')
        exact hiff.1 hexact
      · obtain ⟨risk, hr⟩ := hs.checked
        exact ⟨risk, hrisk'.trans hr⟩
      · exact ⟨_, hpos, hthen (hiff.2 hb)⟩
  | cancel id =>
    have hk := OrderBook.Kept.cancel hs.kept id
    refine ⟨iff_of_true ⟨pm, hpm, hpm⟩ trivial, fun _ => ⟨hk, hs.checked, fun q hq => ?_,
      pm, hpm, hfollows⟩⟩
    rw [EngineSession.cancel_static hs.kept id (g := Order.price) fun _ => rfl]
    exact hs.priced q hq

/-- The calls of `update_position` that an engine makes are exact throughout a run exactly when the
accounts of the traded names stay bounded throughout. A market order counts with the price that the
engine gives it. -/
theorem positions_exact_iff {symbol : List UInt8} {shared : Collaborators} {risk : RiskManager}
    (hrisk : shared.riskManager = some risk) (hpm : shared.positionManager = some {})
    (h : Runs Step (start symbol shared) ts s) :
    (∀ x ∈ ts, BooksExactly x.1 x.2.1 x.2.2) ↔ ∀ x ∈ ts, x.1.StaysBounded x.2.1 :=
  h.each_iff (P := fun x => BooksExactly x.1 x.2.1 x.2.2) (C := fun x => x.1.StaysBounded x.2.1)
    (Sound.start hrisk hpm)
    (fun _ _ _ hs hr hc => ⟨(hr.sound_iff hs).2 hc, (hr.sound_iff hs).1.2 hc⟩)
    fun _ _ _ hs hr hp => (hr.sound_iff hs).1.1 hp

def perform (s : PositionSession) : EngineSession.Call → Option (EngineEvent × PositionSession)
  | .process p o =>
    if p ∉ s.session.known ∧ o.Fresh then
      ((s.session.call p o).processOrder p).bind fun r =>
        if r.1.accepted then
          some (.process p o r.1, ⟨⟨r.2, p :: s.session.known, s.session.closed⟩,
            ((calls r.2 r.1).map PositionUpdate.entry).foldl Ledger.enter s.ledger⟩)
        else none
    else none
  | .cancel id => some (.cancel id (s.session.run.cancelOrder id).1,
      ⟨⟨(s.session.run.cancelOrder id).2, s.session.known, s.session.closed⟩, s.ledger⟩)

theorem perform_step {c : EngineSession.Call} (h : s.perform c = some (e, s')) : Step s e s' := by
  cases c with
  | process p o =>
    simp only [perform] at h
    split at h
    · rename_i hok
      obtain ⟨⟨out, t⟩, hm, he⟩ := Option.bind_eq_some_iff.1 h
      split at he
      · rename_i hacc
        obtain ⟨rfl, rfl⟩ := Prod.mk.inj (Option.some.inj he)
        exact .process hok.1 hok.2 hacc hm
      · cases he
    · cases h
  | cancel id =>
    obtain ⟨rfl, rfl⟩ := Prod.mk.inj (Option.some.inj h)
    exact .cancel id

theorem exists_run (shared : Collaborators) (cs : List EngineSession.Call)
    (ok : List (PositionSession × EngineEvent × PositionSession) → PositionSession → Bool)
    (h : (Runs.play perform (start [] shared) cs).any (fun x => ok x.1 x.2) = true) :
    ∃ ts s, Runs Step (start [] shared) ts s ∧ ok ts s = true :=
  Runs.exists_of_play (fun _ _ _ _ => perform_step) h

/-- A sell meets a buy for a part of it. -/
theorem positions_exact_limits : ∃ ts s,
    Runs Step (start [] { riskManager := some {}, positionManager := some {} }) ts s ∧
      ts.length = 2 ∧ ∀ x ∈ ts, BooksExactly x.1 x.2.1 x.2.2 := by
  obtain ⟨ts, s, h, hok⟩ := exists_run { riskManager := some {}, positionManager := some {} }
    [.process 1 (.limit 1 .SELL 100 5), .process 2 (.limit 2 .BUY 100 2)]
    (fun ts _ => ts.length == 2 && ts.all fun x => decide (x.1.StaysBounded x.2.1))
    (by decide +kernel)
  rw [Bool.and_eq_true, beq_iff_eq, List.all_eq_true] at hok
  exact ⟨ts, s, h, hok.1,
    (positions_exact_iff rfl rfl h).2 fun x hx => of_decide_eq_true (hok.2 x hx)⟩

/-- After a buy at 100, a market order buys three more at 100: they are booked at the largest price,
and the product with the quantity overflows. -/
theorem market_buy_overflows : ∃ ts s,
    Runs Step (start [] { riskManager := some {}, positionManager := some {} }) ts s ∧
    ∃ u p o out t, (u, EngineEvent.process p o out, t) ∈ ts ∧ o.type = .MARKET ∧
      (out.bookings.map fun b => (b.quantity, b.price)) = [(3, 100), (3, Int64.maxValue)] ∧
      ¬ BooksExactly u (.process p o out) t := by
  obtain ⟨ts, s, h, hok⟩ := exists_run { riskManager := some {}, positionManager := some {} }
    [.process 1 (.limit 1 .SELL 100 5), .process 2 (.limit 2 .BUY 100 2),
      .process 3 { Order.limit 3 .BUY 0 3 with type := .MARKET }]
    (fun ts _ => ts.any fun x => match x.2.1 with
      | .process _ o out => o.type == .MARKET &&
          (out.bookings.map fun b => (b.quantity, b.price)) == [(3, 100), (3, Int64.maxValue)] &&
          x.1.session.run.shared.positionManager.all fun pm =>
            !decide (pm.Exact x.1.ledger (calls x.2.2.session.run out))
      | .cancel .. => false) (by decide +kernel)
  rw [List.any_eq_true] at hok
  obtain ⟨⟨u, e, t⟩, hx, hok⟩ := hok
  cases e with
  | cancel id r => cases hok
  | process p o out =>
    simp only [Bool.and_eq_true, beq_iff_eq] at hok
    obtain ⟨⟨htype, hbookings⟩, hall⟩ := hok
    refine ⟨ts, s, h, u, p, o, out, t, hx, htype, hbookings, ?_⟩
    rintro ⟨pm, hpm, hexact, -⟩
    rw [hpm, Option.all_some, Bool.not_eq_true', decide_eq_false_iff_not] at hall
    exact hall hexact

end PositionSession

end Velox
