import Velox.StatusTruth

namespace Velox
set_option autoImplicit true

open Greedy OrderBook PriceLevel

/-- What an order asks for: all of it but how far it has got. -/
def Order.terms (o : Order) : Order :=
  { o with status := .NEW, filledQuantity := 0, remainingQuantity := 0 }

/-- What an order that was processed may become. Its terms stay, what it fills it has no longer left,
its status stays unless it is cancelled, and once it is closed nothing changes. -/
structure Order.Becomes (o o' : Order) : Prop where
  terms : o'.terms = o.terms
  filled : o.filledQuantity.toNat ≤ o'.filledQuantity.toNat
  moved : o'.filledQuantity.toNat + o'.remainingQuantity.toNat =
    o.filledQuantity.toNat + o.remainingQuantity.toNat
  status : o'.status = o.status ∨ o'.status = .CANCELLED
  closed : o.isActive = false → o' = o

namespace Order.Becomes

variable {o o' o'' : Order}

theorem refl (o : Order) : o.Becomes o := ⟨rfl, le_rfl, rfl, .inl rfl, fun _ => rfl⟩

theorem trans (h : o.Becomes o') (h' : o'.Becomes o'') : o.Becomes o'' where
  terms := h'.terms.trans h.terms
  filled := h.filled.trans h'.filled
  moved := h'.moved.trans h.moved
  status := by
    rcases h'.status with he | he
    · rw [he]
      exact h.status
    · exact .inr he
  closed := fun hc => by
    have he := h.closed hc
    rw [he] at h'
    rw [h'.closed hc]

theorem cancel (h : o.isActive = true) : o.Becomes o.cancel where
  terms := rfl
  filled := le_rfl
  moved := rfl
  status := .inr rfl
  closed := fun hc => by rw [h] at hc; cases hc

end Order.Becomes

namespace EngineSession

variable {s t : EngineSession} {r : EngineRun} {u : BookRun} {e : EngineEvent} {p q : OrderPtr}
  {o : Order} {out : Outcome} {ts us : List (EngineSession × EngineEvent × EngineSession)}

theorem accepts_closed (ha : EngineRun.Accepts p (s.call p o) u out r) (h : s.book.Kept)
    (hp : p ∉ s.known) (hq : q ∈ s.known) (hc : (s.run.orders q).isActive = false) :
    r.orders q = s.run.orders q := by
  have hne : q ≠ p := fun he => hp (he ▸ hq)
  have hnone : ∀ f ∈ out.fills, f.order ≠ q := fun f hf he => by
    have hmem : f.pair ∈ out.fills.map Fill.pair := List.mem_map_of_mem hf
    rw [← accepts_taken ha h hp] at hmem
    obtain ⟨-, n, hn, -⟩ := mem_taken hmem
    have hactive := (isLive_iff.1 (mem_queue h hn).2.1).1
    rw [show f.pair.1 = q from he, hc] at hactive
    cases hactive
  rw [ha.orders, setStatus_other hne, (accepts_fills ha h hp).1, replay_other hne hnone,
    Session.write_known hp _ hq]
  rfl

theorem accepts_becomes (ha : EngineRun.Accepts p (s.call p o) u out r) (h : s.book.Kept)
    (hp : p ∉ s.known) (ho : o.Fresh) (hw : ∀ q ∈ s.known, (s.run.orders q).Whole)
    (hq : q ∈ s.known) : (s.run.orders q).Becomes (r.orders q) := by
  obtain ⟨hstatus, hfilled, hleft⟩ := accepts_fields ha h hp hw ho hq
  exact {
    terms := accepts_known ha h hp (g := Order.terms) (fun _ _ => rfl) hq
    filled := by omega
    moved := by omega
    status := .inl hstatus
    closed := accepts_closed ha h hp hq }

theorem Step.whole (hs : Step s e t) (h : s.book.Kept)
    (hw : ∀ q ∈ s.known, (s.run.orders q).Whole) : ∀ q ∈ t.known, (t.run.orders q).Whole := by
  cases hs with
  | process hp hid ho hc => exact fun q hq => process_whole h hp hc ho hw hq
  | cancel id =>
    exact fun q hq => (cancel_static h id (g := Order.Whole) (fun _ => rfl) q).mpr (hw q hq)

theorem Step.becomes (hs : Step s e t) (h : s.book.Kept)
    (hw : ∀ q ∈ s.known, (s.run.orders q).Whole) (hq : q ∈ s.known) :
    q ∈ t.known ∧ (s.run.orders q).Becomes (t.run.orders q) ∧
    ((t.run.orders q).status ≠ (s.run.orders q).status →
      e = .cancel (s.run.orders q).orderId true) := by
  cases hs with
  | @process p o out r hp hid ho hc =>
    refine ⟨List.mem_cons_of_mem p hq, ?_⟩
    rcases EngineRun.processOrder_cases hc with ⟨-, hr⟩ | ⟨-, u, ha⟩
    · have hsame : r.orders q = s.run.orders q := by
        rw [refuses_orders hr, Session.write_known hp _ hq]
        rfl
      rw [hsame]
      exact ⟨.refl _, fun hne => absurd rfl hne⟩
    · exact ⟨accepts_becomes ha h hp ho hw hq,
        fun hne => absurd (accepts_fields ha h hp hw ho hq).1 hne⟩
  | cancel id =>
    refine ⟨hq, ?_⟩
    have hsame : (s.run.cancelOrder id).2.orders = s.run.orders →
        (s.run.orders q).Becomes ((s.run.cancelOrder id).2.orders q) ∧
        (((s.run.cancelOrder id).2.orders q).status ≠ (s.run.orders q).status →
          EngineEvent.cancel id (s.run.cancelOrder id).1 =
            .cancel (s.run.orders q).orderId true) := fun he => by
      rw [he]
      exact ⟨.refl _, fun hne => absurd rfl hne⟩
    rcases h.stocked.cancel_cases id with
      ⟨-, he⟩ | ⟨loc, -, -, he⟩ | ⟨loc, l, side, lvl, hi, -, -, -, he⟩
    · exact hsame (congrArg (fun r => r.2.2) he)
    · exact hsame (congrArg (fun r => r.2.2) he)
    · obtain ⟨-, hid, hactive, -⟩ := h.indexed id loc hi
      have horders : (s.run.cancelOrder id).2.orders = cancelIn s.run.orders loc.orderPtr :=
        congrArg (fun r => r.2.2) he
      have hanswer : (s.run.cancelOrder id).1 = true := congrArg Prod.fst he
      change (s.run.orders q).Becomes ((s.run.cancelOrder id).2.orders q) ∧ _
      rw [horders, hanswer]
      by_cases hql : q = loc.orderPtr
      · subst hql
        rw [cancelIn_self]
        exact ⟨.cancel hactive, fun _ => congrArg (EngineEvent.cancel · true) hid.symm⟩
      · rw [cancelIn_other hql]
        exact ⟨.refl _, fun hne => absurd rfl hne⟩

/-- The life of an order, whatever is processed and cancelled later. Its terms stay; what it fills it
has no longer left; its status changes only when it is cancelled, by a call with its own id that is
answered with true; and a filled taker, a rejected or a cancelled order never changes again. -/
theorem lifecycle {symbol : List UInt8} {shared : Collaborators}
    (h : Runs Step (start symbol shared) ts s) (h' : Runs Step s us t) (hq : q ∈ s.known) :
    (s.run.orders q).Becomes (t.run.orders q) ∧
    ((t.run.orders q).status ≠ (s.run.orders q).status →
      .cancel (s.run.orders q).orderId true ∈ us.map fun x => x.2.1) := by
  have hkept : ∀ {vs u}, Runs Step (start symbol shared) vs u →
      u.book.Kept ∧ ∀ q ∈ u.known, (u.run.orders q).Whole := fun hu =>
    hu.invariant (I := fun u => u.book.Kept ∧ ∀ q ∈ u.known, (u.run.orders q).Whole)
      ⟨kept_start symbol shared, fun q hq => by cases hq⟩
      fun _ _ _ hi hs => ⟨hs.kept hi.1, hs.whole hi.1 hi.2⟩
  have key : q ∈ t.known ∧ (s.run.orders q).Becomes (t.run.orders q) ∧
      ((t.run.orders q).status ≠ (s.run.orders q).status →
        .cancel (s.run.orders q).orderId true ∈ us.map fun x => x.2.1) := by
    induction h' with
    | nil => exact ⟨hq, .refl _, fun hne => absurd rfl hne⟩
    | @snoc us u e t hu hs ih =>
      obtain ⟨hqu, hbecomes, hcancelled⟩ := ih
      obtain ⟨hk, hw⟩ := hkept (h.trans hu)
      obtain ⟨hqt, hnext, hclosed⟩ := hs.becomes hk hw hqu
      refine ⟨hqt, hbecomes.trans hnext, fun hne => ?_⟩
      rw [List.map_append, List.mem_append]
      by_cases hold : (u.run.orders q).status = (s.run.orders q).status
      · right
        have hid := congrArg Order.orderId hbecomes.terms
        change (u.run.orders q).orderId = (s.run.orders q).orderId at hid
        rw [← hold] at hne
        rw [← hid, ← hclosed hne]
        exact List.mem_singleton_self _
      · exact .inl (hcancelled hold)
  exact key.2

/-- The first order is filled in part by the second, and cancelled; the third one finds it gone. -/
theorem lifecycle_cancelled : ∃ ts us, ∃ s t : EngineSession, Runs Step (start [] {}) ts s ∧
    Runs Step s us t ∧ 1 ∈ s.known ∧ (s.run.orders 1).filledQuantity = 3 ∧
    (t.run.orders 1).status = .CANCELLED ∧ (s.run.orders 1).Becomes (t.run.orders 1) ∧
    .cancel 1 true ∈ us.map fun x => x.2.1 := by
  obtain ⟨ts, s, us, t, h, h', hok⟩ := Runs.exists_of_plays perform (start [] {})
    [.process 1 (.limit 1 .SELL 101 5), .process 2 (.limit 2 .BUY 101 3)]
    [.cancel 1, .process 3 (.limit 3 .BUY 101 4)]
    (fun s _ t => s.known.contains 1 && (s.run.orders 1).filledQuantity == 3 &&
      (s.run.orders 1).orderId == 1 && (s.run.orders 1).status == .NEW &&
      (t.run.orders 1).status == .CANCELLED) (fun _ _ _ _ => perform_step) (by decide +kernel)
  simp only [Bool.and_eq_true, beq_iff_eq, List.contains_iff_mem] at hok
  obtain ⟨⟨⟨⟨hknown, hfilled⟩, hid⟩, hnew⟩, hcancelled⟩ := hok
  obtain ⟨hbecomes, hmem⟩ := lifecycle h h' hknown
  rw [hid, hnew, hcancelled] at hmem
  exact ⟨ts, us, s, t, h, h', hknown, hfilled, hcancelled, hbecomes, hmem (by decide)⟩

end EngineSession

end Velox
