import Velox.FloorBooks

namespace Velox
set_option autoImplicit true

open OrderBook
open scoped List

/-- As many shares of every name are booked as bought as are booked as sold. -/
def Collaborators.Flat (c : Collaborators) : Prop :=
  ∃ pm, c.positionManager = some pm ∧ ∀ name, (pm.position name).netPosition = 0 ∧
    (pm.position name).totalBought = (pm.position name).totalSold

namespace Tracks

variable {r t : EngineRun} {e : NaiveEngine} {p : OrderPtr} {o : Order} {key : List UInt8}
  {ps : List (OrderPtr × Order)}

theorem turn_flat (h : Tracks r e) (hpending : e.pending = (p, o) :: ps)
    (ht : r.matchCycleBody = some (.inr t)) (hkeyed : ∀ q ∈ e.processed, (r.orders q).key = key)
    (hkey : o.key = key) (hflat : r.shared.Flat) : t.shared.Flat := by
  obtain ⟨-, ho, -, hp⟩ := h.held (p, o) (hpending ▸ List.mem_cons_self)
  obtain ⟨out, hc⟩ := h.turn_call hpending ht
  obtain ⟨pm, hpm, hbooked⟩ := hflat
  rcases EngineRun.processOrder_cases hc with ⟨-, hr⟩ | ⟨-, u, ha⟩
  · exact ⟨pm, hr.positions.trans hpm, hbooked⟩
  · refine ⟨pm.book u.orders out.bookings, ?_, fun name => ?_⟩
    · rw [ha.positions, show ((e.turning r).call p o).shared.positionManager = _ from hpm]
      rfl
    · obtain ⟨hnet, hbought, hsold⟩ := PositionManager.book_totals u.orders out.bookings pm name
      obtain ⟨hzero, heven⟩ := hbooked name
      have hsame := EngineSession.booked_evenly ha h.intact.toKept hp ho hkeyed hkey name
      have hcancel : ∀ a : Int64, 0 + a - a = 0 := by grind
      rw [hnet, hbought, hsold, hzero, heven, hsame]
      exact ⟨hcancel _, rfl⟩

end Tracks

namespace TradingFloor

variable {n : ℕ} {c : SimulatorSettings} {s t : TradingFloor n} {ev : FloorEvent n} {i : Fin n}
  {symbols : Fin n → List UInt8} {shared : Collaborators} {q : UInt32}
  {ts : List (TradingFloor n × FloorEvent n × TradingFloor n)} {e : NaiveEngine}
  {log : List (OrderPtr × Order)} {o : Order} {p : OrderPtr}

theorem Follows.keyed (h : s.Follows i ts e log) (hd : s.Delivered symbols ts) :
    (∀ x ∈ e.pending, x.2.key = trimSpaces (symbols i)) ∧
    ∀ p ∈ e.processed, ((s.run i).orders p).key = trimSpaces (symbols i) := by
  have hgiven : ∀ x ∈ log ++ e.pending, x.2.key = trimSpaces (symbols i) := fun x hx => by
    obtain ⟨o, ho, he⟩ :=
      List.mem_map.1 (h.given.subset (List.mem_map_of_mem (f := Prod.snd) hx))
    have hmem : o ∈ ordersFor (symbols i) s.submitted := by
      rw [hd.account i]
      exact List.mem_append_left _ ho
    obtain ⟨y, hy, rfl⟩ := List.mem_map.1 hmem
    have hsymbol : y.order.symbol.cstr = symbols i := of_decide_eq_true (List.mem_filter.1 hy).2
    rw [← he, ← hsymbol]
    rfl
  refine ⟨fun x hx => hgiven x (List.mem_append_right _ hx), fun p hp => ?_⟩
  obtain ⟨x, hx, he⟩ := List.mem_map.1 (h.labels p hp)
  have hkey : x.2.key = ((s.run i).orders p).key := congrArg Prod.snd he
  rw [← hkey]
  exact hgiven x (List.mem_append_left _ hx)

theorem FairStep.flat (hst : FairStep c s ev t) (hd : s.Delivered symbols ts)
    (hf : ∀ i, ∃ e log, s.Follows i ts e log) (h : s.shared.Flat) : t.shared.Flat := by
  cases hst.1 with
  | simulator | snapshot | hand | drop | sweep => exact h
  | @process i r hturn =>
    obtain ⟨e, log, hi⟩ := hf i
    obtain ⟨hpending, hprocessed⟩ := hi.keyed hd
    obtain ⟨p, qs, out, hitems, -⟩ := EngineRun.turn_spec hturn
    have hqueue := hi.tracks.queue
    rw [hitems] at hqueue
    obtain ⟨⟨p', o⟩, ps, hfront, -, -⟩ := List.map_eq_cons_iff.1 hqueue.symm
    exact hi.tracks.turn_flat hfront hturn hprocessed
      (hpending (p', o) (hfront ▸ List.mem_cons_self)) h
  | cancel =>
    exact cancelLoop_invariant (I := fun u => u.shared.Flat) (fun _ _ _ hu => hu) _ _ h

/-- Between the threads' moves no symbol has a net position: in any order of the moves in which the
sweeps are clean and no ring overflows, the position manager that the engines share has booked every
trade for a buyer and a seller. -/
theorem positions_flat (hinj : Function.Injective symbols) (hs : ∀ i, FitsOrder (symbols i))
    (hpm : shared.positionManager = some {})
    (h : Runs (FairStep c) (start symbols shared q) ts s)
    (ho : Orderly symbols shared s.submitted) : s.shared.Flat := by
  induction h with
  | nil => exact ⟨{}, hpm, fun _ => ⟨rfl, rfl⟩⟩
  | snoc h hst ih =>
    have ho' := ho.of_prefix hst.1.grows.1
    exact hst.flat (delivered_of_runs hinj hs (h.mono fun _ _ _ hst => hst.1)).1
      (follows_of_runs hinj hs h ho').2 (ih ho')

/-- A hundred shares have been bought, and sold. -/
theorem positions_flat_sample : ∃ ts, ∃ s : TradingFloor 10, ∃ pm,
    Runs (FairStep highOpening) (start letters { positionManager := some {} } 500) ts s ∧
    s.shared.positionManager = some pm ∧ (pm.position (letters 9)).totalBought = 100 ∧
    s.shared.Flat := by
  obtain ⟨ts, s, h, hok⟩ := exists_fair_sample_run { positionManager := some {} }
    (fun _ s => decide ((∀ i, ((ordersFor (letters i) s.submitted).map Order.orderId).Nodup) ∧
      ((s.shared.positionManager.getD {}).position (letters 9)).totalBought = 100))
    (by decide +kernel)
  obtain ⟨hnodup, hbought⟩ := of_decide_eq_true hok
  have hflat := positions_flat letters_injective fitsOrder_letters rfl h ⟨hnodup, fun _ _ => rfl⟩
  obtain ⟨pm, hpm, -⟩ := id hflat
  rw [hpm] at hbought
  exact ⟨ts, s, pm, h, hpm, hbought, hflat⟩

end TradingFloor

end Velox
