import Velox.EngineLocality

namespace Velox
set_option autoImplicit true

open OrderBook

inductive EngineCall
  | process (p : OrderPtr)
  | cancel (orderId : UInt64)
  deriving DecidableEq

def EngineCall.Of (K : Set OrderPtr) : EngineCall → Prop
  | .process p => p ∈ K
  | .cancel _ => True

/-- Two engines that work with the same objects and the same orders in memory. -/
structure EnginePair where
  engines : Bool → MatchingEngine
  shared : Collaborators
  orders : OrderHeap

namespace EngineRun

variable {K L : Set OrderPtr} {keys : Set (List UInt8)} {c : EngineCall} {s s' u u' : EngineRun}
  {key : List UInt8}

def perform (s : EngineRun) : EngineCall → Option EngineRun
  | .process p => (s.processOrder p).map Prod.snd
  | .cancel orderId => some (s.cancelOrder orderId).2

def performAll (s : EngineRun) (cs : List EngineCall) : Option EngineRun := cs.foldlM perform s

def record (key : List UInt8) (s : EngineRun) : Option (Option Position) :=
  s.shared.positionManager.map fun pm => pm.mPositions key

/-- Two runs of an engine that differ in orders outside a set, in records of keys outside a set and
in what the gateway holds. -/
structure Agrees (K : Set OrderPtr) (keys : Set (List UInt8)) (s u : EngineRun) : Prop where
  engine : u.engine = s.engine
  orders : ∀ p ∈ K, u.orders p = s.orders p
  risk : u.shared.riskManager = s.shared.riskManager
  records : ∀ key ∈ keys, u.record key = s.record key

theorem perform_within (hw : s.engine.mOrderBook.Within K) (hc : c.Of K)
    (h : s.perform c = some s') : s'.engine.mOrderBook.Within K := by
  cases c with
  | process p =>
    obtain ⟨⟨out, t⟩, ht, rfl⟩ := Option.map_eq_some_iff.1 h
    exact (processOrder_within hw hc ht).1
  | cancel orderId =>
    obtain rfl := Option.some.inj h
    exact hw.cancelOrder orderId

theorem perform_key (h : s.perform c = some s') (q : OrderPtr) :
    (s'.orders q).key = (s.orders q).key := by
  cases c with
  | process p =>
    obtain ⟨⟨out, t⟩, ht, rfl⟩ := Option.map_eq_some_iff.1 h
    exact processOrder_key ht q
  | cancel orderId =>
    obtain rfl := Option.some.inj h
    have hsymbol := cancelOrder_symbol s.engine.mOrderBook s.orders orderId q
    exact congrArg (fun s => trimSpaces (Symbol.cstr s)) hsymbol

theorem perform_risk (h : s.perform c = some s') :
    s'.shared.riskManager = s.shared.riskManager := by
  cases c with
  | process p =>
    obtain ⟨⟨out, t⟩, ht, rfl⟩ := Option.map_eq_some_iff.1 h
    exact processOrder_risk ht
  | cancel orderId =>
    obtain rfl := Option.some.inj h
    rfl

/-- A call on orders of a set does the same to the engine, to those orders and to the positions in
two runs that may differ elsewhere. -/
theorem perform_rewrite {f : OrderPtr → Order → Order} (hf : ∀ q ∈ K, ∀ o, f q o = o)
    (hw : s.engine.mOrderBook.Within K) (hc : c.Of K) (he : u.engine = s.engine)
    (ho : u.orders = Velox.rewrite f s.orders)
    (hrisk : u.shared.riskManager = s.shared.riskManager) (hs : s.perform c = some s')
    (hu : u.perform c = some u') :
    u'.engine = s'.engine ∧ u'.orders = Velox.rewrite f s'.orders ∧
    ∃ bs : List Booking, (∀ b ∈ bs, b.order ∈ K) ∧
      s'.shared.positionManager = s.shared.positionManager.map (·.book s'.orders bs) ∧
      u'.shared.positionManager = u.shared.positionManager.map (·.book u'.orders bs) := by
  cases c with
  | process p =>
    obtain ⟨⟨out, t⟩, ht, rfl⟩ := Option.map_eq_some_iff.1 hs
    obtain ⟨⟨out', t'⟩, ht', rfl⟩ := Option.map_eq_some_iff.1 hu
    obtain ⟨rfl, hengine, horders⟩ := processOrder_rewrite hf hw hc he ho hrisk ht ht'
    exact ⟨hengine, horders, _, (processOrder_within hw hc ht).2, processOrder_positions ht,
      processOrder_positions ht'⟩
  | cancel orderId =>
    obtain rfl := Option.some.inj hs
    obtain rfl := Option.some.inj hu
    have hcancel := cancelOrder_rewrite (unseen_of_exact hf) hw s.orders orderId
    refine ⟨?_, ?_, [], fun _ hb => absurd hb List.not_mem_nil, Option.map_id'.symm,
      Option.map_id'.symm⟩
    · simp only [cancelOrder, he, ho, hcancel]
      rfl
    · simp only [cancelOrder, he, ho, hcancel]
      rfl

theorem Agrees.perform (h : Agrees K keys s u) (hw : s.engine.mOrderBook.Within K) (hc : c.Of K)
    (hs : s.perform c = some s') (hu : u.perform c = some u') : Agrees K keys s' u' := by
  obtain ⟨hengine, horders, bs, hbs, hpos, hpos'⟩ := perform_rewrite graft_exact hw hc h.engine
    (rewrite_graft h.orders).symm h.risk hs hu
  have hexact : ∀ q ∈ K, u'.orders q = s'.orders q := fun q hq => by
    rw [horders]
    exact graft_exact q hq _
  refine ⟨hengine, hexact, ?_, fun key hkey => ?_⟩
  · rw [perform_risk hu, perform_risk hs, h.risk]
  · have hrecord := h.records key hkey
    have hbook : ∀ pm : PositionManager, pm.book u'.orders bs = pm.book s'.orders bs :=
      PositionManager.book_congr (fun b hb => by rw [hexact _ (hbs b hb)])
        (fun b hb => by rw [hexact _ (hbs b hb)])
    rw [record, record] at hrecord ⊢
    rw [hpos, hpos']
    cases hs : s.shared.positionManager with
    | none =>
      rw [hs, Option.map_none, Option.map_eq_none_iff] at hrecord
      rw [hrecord]
      rfl
    | some pm =>
      rw [hs, Option.map_some, Option.map_eq_some_iff] at hrecord
      obtain ⟨pm', hpm', hkey'⟩ := hrecord
      rw [hpm', Option.map_some, Option.map_some, Option.map_some, Option.map_some, hbook]
      exact congrArg some (PositionManager.book_agree hkey')

theorem perform_untouched (hw : s.engine.mOrderBook.Within L) (hc : c.Of L)
    (h : s.perform c = some s') : (∀ q, q ∉ L → s'.orders q = s.orders q) ∧
    ∀ key, (∀ q ∈ L, (s.orders q).key ≠ key) → s'.record key = s.record key := by
  obtain ⟨-, horders, bs, hbs, hpos, -⟩ := perform_rewrite graft_exact hw hc rfl
    (rewrite_graft_self L s.orders).symm rfl h h
  refine ⟨fun q hq => ?_, fun key hkey => ?_⟩
  · rw [horders]
    exact graft_other hq _
  · rw [record, hpos, Option.map_map, record]
    congr 1
    funext pm
    refine PositionManager.book_other (fun b hb => ?_) pm
    rw [perform_key h]
    exact hkey _ (hbs b hb)

theorem performAll_cons (s : EngineRun) (c : EngineCall) (cs : List EngineCall) :
    s.performAll (c :: cs) = (s.perform c).bind fun t => t.performAll cs :=
  List.foldlM_cons

theorem Agrees.returns (h : Agrees K keys s u) (hw : s.engine.mOrderBook.Within K) (hc : c.Of K)
    (hs : s.shared.Stocked) (hu : u.shared.Stocked)
    (hgateway : u.shared.gateway.isSome = s.shared.gateway.isSome) :
    (u.perform c).isSome = (s.perform c).isSome := by
  cases c with
  | process p =>
    have hp : u.orders p = s.orders p := h.orders p hc
    have hcheck : u.shared.checkRisk (u.orders p) = s.shared.checkRisk (s.orders p) := by
      rw [Collaborators.checkRisk, h.risk, hp, Collaborators.checkRisk]
    have hstart : (⟨u.engine.mOrderBook, Function.update u.orders p (u.orders p).toLimit, []⟩ :
        BookRun) = BookRun.rewrite (graft K u.orders)
          ⟨s.engine.mOrderBook, Function.update s.orders p (s.orders p).toLimit, []⟩ := by
      rw [h.engine, hp, BookRun.rewrite, rewrite_update, rewrite_graft h.orders, graft_exact p hc]
    rw [EngineRun.perform, EngineRun.perform, Option.isSome_map, Option.isSome_map,
      (processOrder_returns hs).1, (processOrder_returns hu).1, hcheck, hgateway, hstart,
      match_rewrite (unseen_of_exact graft_exact) hc ⟨hw, fun _ hx => by cases hx⟩,
      Option.isSome_map]
  | cancel orderId => rfl

theorem perform_stocked (hs : s.shared.Stocked) (h : s.perform c = some s') :
    s'.shared.Stocked ∧ s'.shared.gateway.isSome = s.shared.gateway.isSome := by
  cases c with
  | process p =>
    obtain ⟨r, hr, rfl⟩ := Option.map_eq_some_iff.1 h
    exact (processOrder_returns hs).2 r hr
  | cancel orderId =>
    obtain rfl := Option.some.inj h
    exact ⟨hs, rfl⟩

end EngineRun

namespace EnginePair

def run (s : EnginePair) (side : Bool) : EngineRun := ⟨s.engines side, s.shared, s.orders⟩

def put (s : EnginePair) (side : Bool) (t : EngineRun) : EnginePair :=
  ⟨Function.update s.engines side t.engine, t.shared, t.orders⟩

/-- A call of the engine it is tagged with. -/
def perform (s : EnginePair) (c : Bool × EngineCall) : Option EnginePair :=
  ((s.run c.1).perform c.2).map (s.put c.1)

def performAll (s : EnginePair) (cs : List (Bool × EngineCall)) : Option EnginePair :=
  cs.foldlM perform s

def own (side : Bool) (cs : List (Bool × EngineCall)) : List EngineCall :=
  (cs.filter fun c => c.1 = side).map Prod.snd

/-- The engines' books point to orders of their own, which are filed under other names than those of
the other engine. -/
structure Separate (owned : Bool → Set OrderPtr) (s : EnginePair) : Prop where
  disjoint : ∀ side, ∀ p ∈ owned side, p ∉ owned !side
  books : ∀ side, (s.engines side).mOrderBook.Within (owned side)
  keys : ∀ side, ∀ p ∈ owned side, ∀ q ∈ owned !side, (s.orders p).key ≠ (s.orders q).key

variable {owned : Bool → Set OrderPtr} {s t : EnginePair} {u v : EngineRun} {side d : Bool}
  {keys : Set (List UInt8)} {c : EngineCall} {cs : List (Bool × EngineCall)}

theorem own_same : own side ((side, c) :: cs) = c :: own side cs := by
  cases side <;> rfl

theorem own_other (he : side ≠ d) : own side ((d, c) :: cs) = own side cs := by
  cases side <;> cases d <;> first | rfl | exact absurd rfl he

theorem run_put (s : EnginePair) (side : Bool) (t : EngineRun) : (s.put side t).run side = t := by
  rw [run, show (s.put side t).engines side = t.engine from Function.update_self ..]
  rfl

theorem run_put_other (he : side ≠ d) (s : EnginePair) (t : EngineRun) :
    (s.put d t).run side = { t with engine := s.engines side } := by
  rw [run, show (s.put d t).engines side = s.engines side from Function.update_of_ne he ..]
  rfl

theorem performAll_cons (s : EnginePair) (c : Bool × EngineCall) (cs : List (Bool × EngineCall)) :
    s.performAll (c :: cs) = (s.perform c).bind fun t => t.performAll cs :=
  List.foldlM_cons

theorem perform_run (h : s.perform (d, c) = some t) :
    (s.run d).perform c = some (t.run d) ∧
      ∀ side, side ≠ d → t.run side = { t.run d with engine := s.engines side } := by
  obtain ⟨v, hv, rfl⟩ := Option.map_eq_some_iff.1 h
  rw [run_put]
  exact ⟨hv, fun side he => run_put_other he s v⟩

theorem Separate.perform (h : s.Separate owned) (hc : c.Of (owned d))
    (hs : s.perform (d, c) = some t) : t.Separate owned where
  disjoint := h.disjoint
  books := by
    obtain ⟨hrun, hother⟩ := perform_run hs
    have hself := EngineRun.perform_within (h.books d) hc hrun
    intro side
    by_cases he : side = d
    · exact he ▸ hself
    · rw [show t.engines side = (t.run side).engine from rfl, hother side he]
      exact h.books side
  keys side p hp q hq := by
    have hkey := EngineRun.perform_key (perform_run hs).1
    exact fun he => h.keys side p hp q hq ((hkey p).symm.trans (he.trans (hkey q)))

theorem Separate.subset (h : s.Separate owned) (side : Bool) : owned side ⊆ (owned !side)ᶜ :=
  h.disjoint side

theorem Separate.agrees_own (h : s.Separate owned) (hc : c.Of (owned d))
    (ha : (s.run d).Agrees (owned !d)ᶜ keys u) (hs : s.perform (d, c) = some t)
    (hu : u.perform c = some v) : (t.run d).Agrees (owned !d)ᶜ keys v := by
  have hcall : c.Of (owned !d)ᶜ := by
    cases c with
    | process p => exact h.subset d hc
    | cancel orderId => trivial
  exact ha.perform ((h.books d).mono (h.subset d)) hcall (perform_run hs).1 hu

theorem Separate.agrees_other (h : s.Separate owned) (hc : c.Of (owned d)) (he : side ≠ d)
    (hkeys : ∀ key ∈ keys, ∀ q ∈ owned !side, (s.orders q).key ≠ key)
    (ha : (s.run side).Agrees (owned !side)ᶜ keys u) (hs : s.perform (d, c) = some t) :
    (t.run side).Agrees (owned !side)ᶜ keys u := by
  obtain rfl : d = !side := Bool.eq_not_of_ne he.symm
  obtain ⟨hrun, hother⟩ := perform_run hs
  obtain ⟨horders, hrecords⟩ := EngineRun.perform_untouched (h.books _) hc hrun
  rw [hother side he]
  refine ⟨ha.engine, fun p hp => ?_, ?_, fun key hkey => ?_⟩
  · exact (ha.orders p hp).trans (horders p hp).symm
  · exact ha.risk.trans (EngineRun.perform_risk hrun).symm
  · exact (ha.records key hkey).trans (hrecords key (hkeys key hkey)).symm

theorem Separate.agrees_all (keys : Set (List UInt8)) (h : s.Separate owned)
    (hcalls : ∀ x ∈ cs, x.2.Of (owned x.1))
    (hkeys : ∀ key ∈ keys, ∀ q ∈ owned !side, (s.orders q).key ≠ key)
    (ha : (s.run side).Agrees (owned !side)ᶜ keys u) (hs : s.performAll cs = some t)
    (hu : u.performAll (own side cs) = some v) : (t.run side).Agrees (owned !side)ᶜ keys v := by
  induction cs generalizing s u with
  | nil =>
    obtain rfl := Option.some.inj hs
    obtain rfl := Option.some.inj hu
    exact ha
  | cons x cs ih =>
    obtain ⟨d, c⟩ := x
    rw [performAll_cons, Option.bind_eq_some_iff] at hs
    obtain ⟨s', hs', hrest⟩ := hs
    have hc : c.Of (owned d) := hcalls _ (List.mem_cons_self ..)
    have hcalls' : ∀ x ∈ cs, x.2.Of (owned x.1) := fun x hx => hcalls x (List.mem_cons_of_mem _ hx)
    have hkeys' : ∀ key ∈ keys, ∀ q ∈ owned !side, (s'.orders q).key ≠ key :=
      fun key hkey q hq => EngineRun.perform_key (perform_run hs').1 q ▸ hkeys key hkey q hq
    by_cases he : side = d
    · subst he
      rw [own_same, EngineRun.performAll_cons, Option.bind_eq_some_iff] at hu
      obtain ⟨u', hu', hurest⟩ := hu
      exact ih (h.perform hc hs') hcalls' hkeys' (h.agrees_own hc ha hs' hu') hrest hurest
    · rw [own_other he] at hu
      exact ih (h.perform hc hs') hcalls' hkeys' (h.agrees_other hc he hkeys ha hs') hrest hu

theorem Separate.returns_iff (us : Bool → EngineRun) (h : s.Separate owned)
    (hcalls : ∀ x ∈ cs, x.2.Of (owned x.1)) (hstocked : s.shared.Stocked)
    (ha : ∀ side, (s.run side).Agrees (owned !side)ᶜ ∅ (us side) ∧ (us side).shared.Stocked ∧
      (us side).shared.gateway.isSome = s.shared.gateway.isSome) :
    (s.performAll cs).isSome ↔ ∀ side, ((us side).performAll (own side cs)).isSome := by
  induction cs generalizing s us with
  | nil => exact iff_of_true rfl fun _ => rfl
  | cons x cs ih =>
    obtain ⟨d, c⟩ := x
    have hc : c.Of (owned d) := hcalls _ (List.mem_cons_self ..)
    have hcall : c.Of (owned !d)ᶜ := by
      cases c with
      | process p => exact h.subset d hc
      | cancel orderId => trivial
    have hreturns : ((us d).perform c).isSome = ((s.run d).perform c).isSome :=
      (ha d).1.returns ((h.books d).mono (h.subset d)) hcall hstocked (ha d).2.1 (ha d).2.2
    rw [performAll_cons]
    cases hs : s.perform (d, c) with
    | none =>
      have hrun : (s.run d).perform c = none := Option.map_eq_none_iff.1 hs
      rw [hrun, Option.isSome_none, Option.isSome_eq_false_iff, Option.isNone_iff_eq_none] at hreturns
      refine iff_of_false (Bool.noConfusion ·) fun hall => ?_
      have hd := hall d
      rw [own_same, EngineRun.performAll_cons, hreturns] at hd
      cases hd
    | some s' =>
      obtain ⟨hrun, -⟩ := perform_run hs
      rw [hrun, Option.isSome_some, Option.isSome_iff_exists] at hreturns
      obtain ⟨u', hu'⟩ := hreturns
      obtain ⟨hstocked', hgateway'⟩ := EngineRun.perform_stocked hstocked hrun
      obtain ⟨hstockedu, hgatewayu⟩ := EngineRun.perform_stocked (ha d).2.1 hu'
      have hstep := ih (Function.update us d u') (h.perform hc hs)
        (fun x hx => hcalls x (List.mem_cons_of_mem _ hx)) hstocked' fun side => by
          by_cases he : side = d
          · subst he
            rw [Function.update_self]
            exact ⟨h.agrees_own hc (ha side).1 hs hu', hstockedu,
              hgatewayu.trans ((ha side).2.2.trans hgateway'.symm)⟩
          · rw [Function.update_of_ne he]
            exact ⟨h.agrees_other hc he (fun _ hkey => absurd hkey (Set.notMem_empty _)) (ha side).1 hs,
              (ha side).2.1, (ha side).2.2.trans hgateway'.symm⟩
      rw [Option.bind_some, hstep]
      refine forall_congr' fun side => ?_
      by_cases he : side = d
      · subst he
        rw [Function.update_self, own_same, EngineRun.performAll_cons, hu', Option.bind_some]
      · rw [Function.update_of_ne he, own_other he]

theorem agrees_refl (K : Set OrderPtr) (keys : Set (List UInt8)) (u : EngineRun) :
    u.Agrees K keys u :=
  ⟨rfl, fun _ _ => rfl, rfl, fun _ _ => rfl⟩

/-- Whatever the interleaving, each engine, its orders and its records end as they do when its own
calls are made alone; with a pool that always answers, the calls all return in the one case exactly
when they do in the other. -/
theorem engines_independent (h : s.Separate owned) (hcalls : ∀ x ∈ cs, x.2.Of (owned x.1)) :
    (∀ side t u, s.performAll cs = some t → (s.run side).performAll (own side cs) = some u →
      t.engines side = u.engine ∧ (∀ p, p ∉ owned (!side) → t.orders p = u.orders p) ∧
      ∀ key, (∀ q ∈ owned !side, (s.orders q).key ≠ key) →
        (t.run side).record key = u.record key) ∧
    (s.shared.Stocked → ((s.performAll cs).isSome ↔
      ∀ side, ((s.run side).performAll (own side cs)).isSome)) := by
  refine ⟨fun side t u hs hu => ?_, fun hstocked => ?_⟩
  · have ha := h.agrees_all {key | ∀ q ∈ owned !side, (s.orders q).key ≠ key} hcalls
      (fun _ hkey => hkey) (agrees_refl ..) hs hu
    exact ⟨ha.engine.symm, fun p hp => (ha.orders p hp).symm, fun key hkey =>
      (ha.records key hkey).symm⟩
  · exact h.returns_iff s.run hcalls hstocked fun side => ⟨agrees_refl .., hstocked, rfl⟩

/-- Two new engines with a gateway that has one worker, and orders 1 and 2 of symbol A and 3 and 4 of
symbol B in memory. -/
def samplePair : EnginePair where
  engines side := MatchingEngine.new (if side then [66] else [65])
  shared := {
    riskManager := some {}
    gateway := some ({ acquires := some : ExecutionGateway }.addWorker)
    positionManager := some {} }
  orders p :=
    { Order.limit (UInt64.ofNat p) (if p % 2 = 1 then .BUY else .SELL) 100 5 with
      symbol := bif decide (p > 2) then #v[66, 0, 0, 0, 0, 0, 0, 0]
        else #v[65, 0, 0, 0, 0, 0, 0, 0] }

def sampleOwned (side : Bool) : Set OrderPtr := {p | decide (p > 2) = side}

theorem samplePair_key (p : OrderPtr) :
    (samplePair.orders p).key = bif decide (p > 2) then [66] else [65] := by
  have hsymbol : (samplePair.orders p).symbol = bif decide (p > 2)
      then #v[66, 0, 0, 0, 0, 0, 0, 0] else #v[65, 0, 0, 0, 0, 0, 0, 0] := rfl
  rw [Order.key, hsymbol]
  cases decide (p > 2) <;> decide

theorem samplePair_separate : samplePair.Separate sampleOwned where
  disjoint side _ hp hq := Bool.not_ne_self side (hq.symm.trans hp)
  books _ := within_new _ _
  keys side p hp q hq := by
    have hp' : decide (p > 2) = side := hp
    have hq' : decide (q > 2) = !side := hq
    rw [samplePair_key, samplePair_key, hp', hq']
    cases side <;> decide

def sampleCalls : List (Bool × EngineCall) :=
  [(false, .process 1), (true, .process 3), (true, .process 4), (false, .process 2),
    (false, .cancel 1)]

theorem engines_independent_two_symbols : ∃ t u, samplePair.performAll sampleCalls = some t ∧
    (samplePair.run true).performAll [.process 3, .process 4] = some u ∧
    t.engines true = u.engine ∧ t.orders 3 = u.orders 3 ∧
    (t.run true).record [66] = u.record [66] ∧
    u.record [66] = some (some ⟨0, 0, 100, 5, 5⟩) := by
  obtain ⟨t, ht⟩ := Option.isSome_iff_exists.1
    (show (samplePair.performAll sampleCalls).isSome = true by decide +kernel)
  have hpnl : ((samplePair.run true).performAll [.process 3, .process 4]).any
      (fun u => decide (u.record [66] = some (some ⟨0, 0, 100, 5, 5⟩))) = true := by decide +kernel
  rw [Option.any_eq_true] at hpnl
  obtain ⟨u, hu, hrecord⟩ := hpnl
  have hcalls : ∀ x ∈ sampleCalls, x.2.Of (sampleOwned x.1) := by
    intro x hx
    fin_cases hx <;> trivial
  obtain ⟨hengine, horders, hrecords⟩ :=
    (engines_independent samplePair_separate hcalls).1 true t u ht hu
  refine ⟨t, u, ht, hu, hengine, horders 3 (fun h : true = false => nomatch h), ?_, ?_⟩
  · refine hrecords [66] fun q hq => ?_
    have hq' : decide (q > 2) = false := hq
    rw [samplePair_key, hq']
    decide
  · exact of_decide_eq_true hrecord

end EnginePair

end Velox
