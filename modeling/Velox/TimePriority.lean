import Velox.Reference
import Velox.Lib.Allocation

namespace Velox
set_option autoImplicit true

open Greedy OrderBook PriceLevel

/-- Priority on a side, given the orders submitted so far, latest first: the better price, or the
same price and submitted before. -/
def Ticket.Prior (known : List OrderPtr) (side : Bool) (x y : Ticket) : Prop :=
  ahead side x.price y.price = true ∨ x.price = y.price ∧ [y.order, x.order].Sublist known

/-- Both sides stand by priority. -/
def RefBook.Timed (known : List OrderPtr) (b : RefBook) : Prop :=
  ∀ side, ((b.side side).map Prod.fst).Pairwise (Ticket.Prior known side)

variable {known : List OrderPtr} {side isBid : Bool} {x y z : Ticket} {b : RefBook}

theorem pair_asymm {p q : OrderPtr} (hnd : known.Nodup) (h : [p, q].Sublist known) :
    ¬ [q, p].Sublist known := by
  induction known with
  | nil => cases h
  | cons a known ih =>
    obtain ⟨ha, hnd⟩ := List.nodup_cons.1 hnd
    intro h'
    cases h with
    | cons _ h =>
      cases h' with
      | cons _ h' => exact ih hnd h h'
      | cons_cons _ h' => exact ha (h.subset (by simp))
    | cons_cons _ h =>
      cases h' with
      | cons _ h' => exact ha (h'.subset (by simp))
      | cons_cons _ h' => exact ha (h.subset List.mem_cons_self)

namespace Ticket

theorem Prior.mono (h : Prior known side x y) (p : OrderPtr) : Prior (p :: known) side x y :=
  h.imp_right fun h => ⟨h.1, h.2.cons p⟩

theorem Prior.of_ahead (h : ahead side x.price y.price = true) (hyz : Prior known side y z)
    (known' : List OrderPtr) : Prior known' side x z := by
  rcases hyz with hyz | ⟨hyz, -⟩
  · exact .inl (ahead_trans h hyz)
  · exact .inl (hyz ▸ h)

theorem Prior.of_not_ahead (h : ahead side x.price y.price = false) (hy : y.order ∈ known) :
    Prior (x.order :: known) side y x := by
  by_cases he : x.price = y.price
  · exact .inr ⟨he.symm, (List.singleton_sublist.2 hy).cons_cons x.order⟩
  · exact .inl (ahead_of_ne he h)

theorem Prior.asymm (hnd : known.Nodup) (h : Prior known side x y) : ¬ Prior known side y x := by
  rintro (h' | ⟨he, hs'⟩)
  · rcases h with h | ⟨he, -⟩
    · rw [ahead_asymm h] at h'
      cases h'
    · rw [he, ahead_irrefl] at h'
      cases h'
  · rcases h with h | ⟨-, hs⟩
    · rw [he, ahead_irrefl] at h
      cases h
    · exact pair_asymm hnd hs hs'

end Ticket

namespace RefBook

variable {xs : List (Ticket × ℕ)} {n : ℕ}

theorem pairwise_queue (hxs : (xs.map Prod.fst).Pairwise (Ticket.Prior known isBid))
    (hknown : ∀ k ∈ xs.map Prod.fst, k.order ∈ known) :
    ((queue isBid (x, n) xs).map Prod.fst).Pairwise
      (Ticket.Prior (x.order :: known) isBid) := by
  induction xs with
  | nil => exact List.pairwise_singleton _ _
  | cons y xs ih =>
    rw [List.map_cons] at hxs hknown
    obtain ⟨hy, hrest⟩ := List.pairwise_cons.1 hxs
    rw [queue, List.orderedInsert_cons]
    split
    · rename_i hahead
      refine List.pairwise_cons.2 ⟨fun k hk => ?_, ?_⟩
      · rcases List.mem_cons.1 hk with rfl | hk
        · exact .inl hahead
        · exact .of_ahead hahead (hy k hk) _
      · exact hxs.imp fun h => h.mono _
    · rename_i hahead
      refine List.pairwise_cons.2 ⟨fun k hk => ?_, ih hrest fun k hk =>
        hknown k (List.mem_cons_of_mem _ hk)⟩
      obtain ⟨z, hz, rfl⟩ := List.mem_map.1 hk
      rcases (List.mem_orderedInsert _).1 hz with rfl | hz
      · exact .of_not_ahead (Bool.not_eq_true _ ▸ hahead) (hknown _ List.mem_cons_self)
      · exact (hy _ (List.mem_map_of_mem hz)).mono _

theorem Timed.mono (h : b.Timed known) (p : OrderPtr) : b.Timed (p :: known) :=
  fun side => (h side).imp fun h => h.mono p

theorem Timed.cancel (h : b.Timed known) (id : UInt64) : (b.cancel id).Timed known := by
  intro side
  rw [side_cancel]
  exact (h side).sublist (List.filter_sublist.map _)

theorem Timed.match (h : b.Timed known)
    (hknown : ∀ side, ∀ k ∈ (b.side side).map Prod.fst, k.order ∈ known) (x : Ticket)
    (isBid : Bool) (n : ℕ) : (b.match x isBid n).1.Timed (x.order :: known) := by
  have hother : ((consume (fun k => !ahead isBid k.price x.price) n (b.side (!isBid))).rest.map
      Prod.fst).Pairwise (Ticket.Prior (x.order :: known) (!isBid)) :=
    ((h (!isBid)).sublist (keys_rest _ _ _)).imp fun h => h.mono _
  intro side
  rw [RefBook.match]
  by_cases hs : side = isBid
  · subst hs
    simp only
    split
    · rw [side_setSide, side_setSide_of_ne (Bool.self_ne_not _)]
      exact pairwise_queue (h side) (hknown side)
    · rw [side_setSide_of_ne (Bool.self_ne_not _)]
      exact h.mono _ side
  · rw [Bool.eq_not_of_ne hs]
    simp only
    split
    · rw [side_setSide_other, side_setSide]
      exact hother
    · rw [side_setSide]
      exact hother

end RefBook

namespace Session

/-- Nothing is lost, no cell is submitted twice, and both sides stand by priority. -/
structure Orderly (s : Session) : Prop where
  intact : s.Intact
  nodup : s.known.Nodup
  timed : s.reference.Timed s.known

variable {s t : Session} {p : OrderPtr} {o : Order} {e : BookEvent} {fills : List Fill}

theorem orderly_start (symbol : List UInt8) : (start symbol).Orderly where
  intact := intact_start symbol
  nodup := List.nodup_nil
  timed := fun side => by
    rw [reference_start]
    cases side <;> exact List.Pairwise.nil

theorem Kept.known_of_resting (h : s.Kept) (side : Bool) {k : Ticket}
    (hk : k ∈ (s.reference.side side).map Prod.fst) : k.order ∈ s.known := by
  rw [side_reference, resting, List.map_map] at hk
  obtain ⟨x, hx, rfl⟩ := List.mem_map.1 hk
  exact h.known_of_queued hx

theorem RoomyStep.orderly (hs : RoomyStep s e t) (h : s.Orderly) : t.Orderly := by
  have href := congrArg Prod.fst (hs.refines h.intact)
  refine ⟨hs.intact h.intact, ?_, ?_⟩
  · cases hs.1 with
    | «match» hp hid ho hcall => exact List.nodup_cons.2 ⟨hp, h.nodup⟩
    | cancel id => exact h.nodup
  · rw [← show _ = t.reference from href]
    cases hs.1 with
    | @«match» p o _ u r hp hid ho hcall =>
      exact h.timed.match (fun side k hk => h.intact.kept.known_of_resting side hk)
        ⟨p, o.orderId, o.price⟩ o.isBuy o.remainingQuantity.toNat
    | cancel id => exact h.timed.cancel id

theorem orderly_of_runs {symbol : List UInt8} (h : Runs RoomyStep (start symbol) ts s) :
    s.Orderly :=
  h.invariant (orderly_start symbol) fun _ _ _ ho hs => hs.orderly ho

def Prior (s : Session) (side : Bool) (p q : OrderPtr) : Prop :=
  Ticket.Prior s.known side (ticket s.orders p) (ticket s.orders q)

theorem Orderly.queue_sorted (h : s.Orderly) (side : Bool) :
    (s.book.sideQueue s.orders side).Pairwise fun x y => s.Prior side x.1 y.1 := by
  have htimed := h.timed side
  rw [side_reference, resting, List.map_map, List.pairwise_map] at htimed
  exact htimed

theorem Kept.match_rest (h : s.Kept) (hp : p ∉ s.known) {u : BookRun} {r : Option OrderPtr}
    (hm : OrderBook.match (some p) (s.call p o) = some (r, u)) :
    (consume (within s.orders o.isBuy o.price) o.remainingQuantity.toNat
      (s.book.sideQueue s.orders (!o.isBuy))).rest = u.book.sideQueue u.orders (!o.isBuy) := by
  rcases h.match_cases hp hm with ⟨hz, rfl, -⟩ | ⟨-, ⟨v, fs, hpr, -⟩, -⟩
  · rw [hz]
    exact (congrArg Greedy.Outcome.rest consume_zero).trans (h.write_queue hp o _).symm
  · have hdrawn := hpr.drawn
    rw [call_self, units, call_self] at hdrawn
    change consume (within (s.write p o) _ _) _ (s.book.sideQueue (s.write p o) _) = _ at hdrawn
    rw [h.write_queue hp] at hdrawn
    rw [consume_congr fun x hx => ?_, hdrawn, hpr.queue_other]
    rw [within, within, write_known hp o (h.known_of_queued hx)]

/-- Price-time priority: after every run in which no ring has more than 127 slots in use, a call of
`match` trades with the orders of the other side by priority, and leaves nothing of any live order
that has priority over one it trades with. -/
theorem time_priority {symbol : List UInt8} (h : Runs RoomyStep (start symbol) ts s)
    (hs : RoomyStep s (.match p o fills r) t) :
    (fills.map Fill.order).Pairwise (s.Prior (!o.isBuy)) ∧
    ∀ f ∈ fills, ∀ q ∈ s.known, (s.orders q).isBuy = !o.isBuy → isLive s.orders q = true →
      s.Prior (!o.isBuy) q f.order → units t.orders q = 0 := by
  have ho := orderly_of_runs h
  have hsorted := ho.queue_sorted (!o.isBuy)
  have hafter := (hs.orderly ho).intact
  cases hs.1 with
  | @«match» _ _ _ u _ hp hid hfresh hcall =>
    have htaken := ho.intact.kept.match_taken hp hcall
    have hrest := ho.intact.kept.match_rest hp hcall
    refine ⟨?_, fun f hf q hq hside hlive hprior => ?_⟩
    · have hkeys := keys_taken (within s.orders o.isBuy o.price) o.remainingQuantity.toNat
        (s.book.sideQueue s.orders (!o.isBuy))
      rw [htaken, List.map_map] at hkeys
      exact (List.pairwise_map.2 hsorted).sublist hkeys
    · by_contra hne
      -- an order with units left is still in the queue, so whatever was taken is before it
      have hstatic : ∀ {α} {g : Order → α}, (∀ o q, g (o.trade q) = g o) →
          g (u.orders q) = g (s.orders q) := by
        intro α g hg
        rw [(ho.intact.kept.match_fills hp hcall).1, replay_static hg, write_known hp o hq]
      have hlive' : isLive u.orders q = true := by
        rw [isLive_iff] at hlive ⊢
        exact ⟨(hstatic (g := Order.isActive) fun _ _ => rfl).trans hlive.1, Nat.pos_of_ne_zero hne⟩
      have hmem := hafter.queued q (List.mem_cons_of_mem p hq) hlive'
      rw [show (u.orders q).isBuy = !o.isBuy from
        (hstatic (g := Order.isBuy) fun _ _ => rfl).trans hside] at hmem
      have hbefore := taken_le_rest (within s.orders o.isBuy o.price)
        (r := fun a b => a = b ∨ s.Prior (!o.isBuy) a b)
        (fun _ => .inl rfl) (hsorted.imp .inr) o.remainingQuantity.toNat
      rw [htaken, hrest] at hbefore
      rcases hbefore _ (List.mem_map_of_mem hf) _ hmem with he | hlater
      · have he : f.order = q := he
        rw [he] at hprior
        exact hprior.asymm ho.nodup hprior
      · exact hprior.asymm ho.nodup hlater

/-- Of two equal offers the one submitted first is filled first. -/
theorem time_priority_first : ∃ ts s t fills r, Runs RoomyStep (start []) ts s ∧
    RoomyStep s (.match 3 (.limit 3 .BUY 100 7) fills r) t ∧ fills.map Fill.order = [1, 2] ∧
    s.Prior false 1 2 ∧ units t.orders 1 = 0 ∧ units t.orders 2 = 3 := by
  obtain ⟨ts, s, h, hok⟩ := exists_roomy_run []
    [.match 1 (.limit 1 .SELL 100 5), .match 2 (.limit 2 .SELL 100 5)]
    (fun _ s => decide (s.known = [2, 1] ∧ (∀ q ∈ s.known, (s.orders q).orderId ≠ 3 ∧
      isLive s.orders q = true ∧ (s.orders q).isBuy = false ∧ (s.orders q).price = 100) ∧
      (OrderBook.match (some 3) (s.call 3 (.limit 3 .BUY 100 7))).any
        fun x => x.2.book.Roomy ∧ x.2.fills.map Fill.order = [1, 2] ∧ units x.2.orders 2 = 3))
    (by decide +kernel)
  obtain ⟨hknown, heach, hcall⟩ := of_decide_eq_true hok
  obtain ⟨⟨r, u⟩, hcall, hu⟩ := (Option.any_eq_true _ _).1 hcall
  obtain ⟨hroomy, hfills, hleft⟩ := of_decide_eq_true hu
  have hstep : RoomyStep s (.match 3 (.limit 3 .BUY 100 7) u.fills r)
      ⟨u.book, u.orders, 3 :: s.known⟩ :=
    ⟨.match (by rw [hknown]; decide) (fun q hq => (heach q hq).1) (Order.fresh_limit _ _ _ _) hcall,
      hroomy⟩
  have h₁ : 1 ∈ s.known := by rw [hknown]; decide
  have h₂ : 2 ∈ s.known := by rw [hknown]; decide
  have hprior : s.Prior false 1 2 := .inr
    ⟨(heach 1 h₁).2.2.2.trans (heach 2 h₂).2.2.2.symm, by rw [hknown]; exact List.Sublist.refl _⟩
  obtain ⟨f, hf, he⟩ : ∃ f ∈ u.fills, f.order = 2 := by
    rw [← List.mem_map, hfills]
    decide
  exact ⟨ts, s, _, u.fills, r, h, hstep, hfills, hprior,
    (time_priority h hstep).2 f hf 1 h₁ (heach 1 h₁).2.2.1 (heach 1 h₁).2.1 (he ▸ hprior), hleft⟩

end Session

end Velox
