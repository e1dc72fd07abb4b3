import Velox.CellReuse
import Velox.OrderIds
import Velox.StatusTruth

namespace Velox
set_option autoImplicit true

open OrderBook
open scoped List

/-- The bots, the matching engines of a list of symbols, and the orders submitted so far. -/
structure Market where
  manager : BotManager
  engines : List EngineSession
  submitted : List Submission := []

inductive MarketEvent
  | snapshot (submissions : List Submission)
  | process (i : ℕ) (p : OrderPtr) (o : Order)
  | drop (o : Order)
  | cancel (orderId : UInt64)

def BotManager.waiting (m : BotManager) (symbol : List UInt8) : List Order :=
  ((m.mOrderQueues symbol).getD {}).items

def EngineSession.ids (e : EngineSession) : List UInt64 :=
  e.known.map fun q => (e.run.orders q).orderId

def ordersFor (symbol : List UInt8) (log : List Submission) : List Order :=
  (log.filter fun x => x.order.symbol.cstr = symbol).map fun x => x.order

namespace Market

def start (symbols : List (List UInt8)) (shared : Collaborators) : Market where
  manager := BotManager.registered symbols
  engines := symbols.map fun symbol => EngineSession.start symbol shared

/-- The engines are asked in order, up to the first that accepts the id. -/
def cancelLoop (id : UInt64) : List EngineSession → List EngineSession
  | [] => []
  | e :: es =>
    let r := e.run.cancelOrder id
    { e with run := r.2 } :: if r.1 then es else cancelLoop id es

/-- A snapshot is delivered, an order that waits for an engine is processed in a cell of its own or
dropped, or a cancel request is taken. Whatever the engines share may change between their calls. -/
inductive Step (symbols : List (List UInt8)) : Market → MarketEvent → Market → Prop
  | snapshot {s : Market} (snapshot : BookSnapshot) (draws : ℕ → Draws) :
      Step symbols s (.snapshot (s.manager.onSnapshot snapshot draws).1)
        { s with
          manager := (s.manager.onSnapshot snapshot draws).2
          submitted := s.submitted ++ (s.manager.onSnapshot snapshot draws).1 }
  | process {s : Market} {i : ℕ} {symbol : List UInt8} {e : EngineSession} {m : BotManager}
      {o : Order} {p : OrderPtr} {shared : Collaborators} {out : Outcome} {t : EngineRun}
      (hsymbol : symbols[i]? = some symbol) (he : s.engines[i]? = some e)
      (hpop : s.manager.popOrderForSymbol symbol = some (o, m)) (hp : p ∉ e.known)
      (h : EngineRun.processOrder p { e.call p o.prepared with shared } = some (out, t)) :
      Step symbols s (.process i p o)
        { s with
          manager := m
          engines := s.engines.set i { e with run := t, known := p :: e.known } }
  | drop {s : Market} {symbol : List UInt8} {m : BotManager} {o : Order}
      (hpop : s.manager.popOrderForSymbol symbol = some (o, m)) :
      Step symbols s (.drop o) { s with manager := m }
  | cancel {s : Market} (id : UInt64) :
      Step symbols s (.cancel id) { s with engines := cancelLoop id s.engines }

/-- A cancel request reaches no order but the one that carries the id. -/
def CancelsMeant (s : Market) : Prop :=
  ∀ (id : UInt64) (i : ℕ) (e e' : EngineSession), s.engines[i]? = some e →
    (cancelLoop id s.engines)[i]? = some e' →
    ∀ p ∈ e.known, e'.run.orders p ≠ e.run.orders p → (e.run.orders p).orderId = id ∧
      ∀ (j : ℕ) (d : EngineSession), s.engines[j]? = some d →
        ∀ q ∈ d.known, (d.run.orders q).orderId = id → j = i ∧ q = p

/-- The book of an engine has no index entry for the id of an order that waits for the engine. -/
def IndexesFree (symbols : List (List UInt8)) (s : Market) : Prop :=
  ∀ (i : ℕ) (symbol : List UInt8) (e : EngineSession),
    symbols[i]? = some symbol → s.engines[i]? = some e →
    ∀ o ∈ s.manager.waiting symbol, e.book.book.mOrderIndex o.orderId = none

/-- An id names one order. -/
structure Identified (symbols : List (List UInt8)) (s : Market) : Prop where
  unique : UniqueIds s.submitted
  cancels : s.CancelsMeant
  indexes : s.IndexesFree symbols

/-- What an engine was given or is to be given was submitted for its symbol. -/
structure Accounted (symbols : List (List UInt8)) (s : Market) : Prop where
  length : s.engines.length = symbols.length
  kept : ∀ e ∈ s.engines, e.book.Kept
  account : ∀ (i : ℕ) (symbol : List UInt8) (e : EngineSession),
    symbols[i]? = some symbol → s.engines[i]? = some e →
    (s.manager.waiting symbol).map Order.orderId ++ e.ids <+~
      (ordersFor symbol s.submitted).map Order.orderId

end Market

namespace BotManager

variable {m m' : BotManager} {o : Order} {symbol s : List UInt8} {xs : List Submission}

theorem waiting_pushOrder (o : Order) (m : BotManager) (symbol : List UInt8) :
    ∃ os, os <+ (if o.symbol.cstr = symbol then [o] else []) ∧
      (m.pushOrder o).waiting symbol = m.waiting symbol ++ os := by
  by_cases hs : o.symbol.cstr = symbol
  · rw [if_pos hs]
    subst hs
    simp only [waiting, pushOrder, Function.update_self, Option.getD_some, SPSCQueue.push]
    split
    · exact ⟨[o], List.Sublist.refl _, rfl⟩
    · exact ⟨[], List.nil_sublist _, (List.append_nil _).symm⟩
  · refine ⟨[], List.nil_sublist _, ?_⟩
    simp only [waiting, pushOrder, Function.update_of_ne (Ne.symm hs), List.append_nil]

theorem waiting_pushAll (xs : List Submission) (m : BotManager) (symbol : List UInt8) :
    ∃ os, os <+ ordersFor symbol xs ∧
      (xs.foldl (fun m x => m.pushOrder x.order) m).waiting symbol = m.waiting symbol ++ os := by
  induction xs generalizing m with
  | nil => exact ⟨[], List.Sublist.refl _, (List.append_nil _).symm⟩
  | cons x xs ih =>
    obtain ⟨os, hos, hpush⟩ := waiting_pushOrder x.order m symbol
    obtain ⟨os', hos', hall⟩ := ih (m.pushOrder x.order)
    refine ⟨os ++ os', ?_, ?_⟩
    · have hcons : ordersFor symbol (x :: xs) =
          (if x.order.symbol.cstr = symbol then [x.order] else []) ++ ordersFor symbol xs := by
        rw [ordersFor, List.filter_cons]
        simp only [decide_eq_true_eq]
        split <;> rfl
      rw [hcons]
      exact hos.append hos'
    · rw [List.foldl_cons, hall, hpush, List.append_assoc]

theorem popOrderForSymbol_spec (h : m.popOrderForSymbol symbol = some (o, m')) :
    m.waiting symbol = o :: m'.waiting symbol ∧
      (∀ s, s ≠ symbol → m'.waiting s = m.waiting s) ∧ m'.mBots = m.mBots := by
  rw [popOrderForSymbol, Option.map_eq_some_iff] at h
  obtain ⟨⟨o', q⟩, hpop, he⟩ := h
  obtain ⟨rfl, rfl⟩ := Prod.mk.inj he
  obtain ⟨q', hq', hpop⟩ := Option.bind_eq_some_iff.1 hpop
  simp only [SPSCQueue.pop] at hpop
  split at hpop
  · cases hpop
  · rename_i x xs hitems
    obtain ⟨rfl, rfl⟩ := Prod.mk.inj (Option.some.inj hpop)
    refine ⟨?_, fun s hs => ?_, rfl⟩
    · simp only [waiting, hq', Function.update_self, Option.getD_some, hitems]
    · simp only [waiting, Function.update_of_ne hs]

end BotManager

namespace Market

variable {symbols : List (List UInt8)} {symbol : List UInt8} {s s' : Market} {ev : MarketEvent}
  {e e' d : EngineSession} {es : List EngineSession} {m : BotManager} {i j : ℕ} {id : UInt64}
  {o : Order} {p q : OrderPtr} {shared : Collaborators} {out : Outcome} {t : EngineRun}

theorem cancelLoop_at (id : UInt64) (h : es[i]? = some e) :
    ∃ e', (cancelLoop id es)[i]? = some e' ∧
      (e' = e ∨ e' = { e with run := (e.run.cancelOrder id).2 }) := by
  induction es generalizing i with
  | nil => cases h
  | cons d es ih =>
    cases i with
    | zero =>
      obtain rfl := Option.some.inj h
      exact ⟨_, rfl, .inr rfl⟩
    | succ i =>
      rw [cancelLoop]
      change ∃ e', (if (d.run.cancelOrder id).1 then es else cancelLoop id es)[i]? = some e' ∧ _
      split
      · exact ⟨e, h, .inl rfl⟩
      · exact ih h

theorem cancelLoop_length (id : UInt64) (es : List EngineSession) :
    (cancelLoop id es).length = es.length := by
  induction es with
  | nil => rfl
  | cons d es ih =>
    rw [cancelLoop, List.length_cons, List.length_cons]
    split
    · rfl
    · rw [ih]

theorem cancelLoop_kept (hk : e.book.Kept)
    (h : e' = e ∨ e' = { e with run := (e.run.cancelOrder id).2 }) :
    e'.book.Kept ∧ e'.ids = e.ids := by
  rcases h with rfl | rfl
  · exact ⟨hk, rfl⟩
  · exact ⟨OrderBook.Kept.cancel hk id, List.map_congr_left fun q _ =>
      EngineSession.cancel_static hk id (g := Order.orderId) (fun _ => rfl) q⟩

theorem cancelLoop_changes (hk : e.book.Kept)
    (h : e' = e ∨ e' = { e with run := (e.run.cancelOrder id).2 })
    (hne : e'.run.orders p ≠ e.run.orders p) : (e.run.orders p).orderId = id := by
  rcases h with rfl | rfl
  · exact absurd rfl hne
  · rcases EngineSession.cancel_cases hk id with ⟨-, he⟩ | ⟨-, q, -, hid, he⟩
    · exact absurd (congrFun he p) hne
    · by_cases hp : p = q
      · rw [hp]
        exact hid
      · refine absurd ?_ hne
        rw [he]
        exact cancelIn_other hp

theorem process_accounted (hk : e.book.Kept) (hp : p ∉ e.known)
    (h : EngineRun.processOrder p { e.call p o.prepared with shared } = some (out, t)) :
    (EngineSession.book { e with run := t, known := p :: e.known }).Kept ∧
      EngineSession.ids { e with run := t, known := p :: e.known } = o.orderId :: e.ids := by
  let e₀ : EngineSession := { e with run := { e.run with shared } }
  have hk₀ : e₀.book.Kept := hk
  have h₀ : (e₀.call p o.prepared).processOrder p = some (out, t) := h
  have hkept := EngineSession.process_kept (s := e₀) hk₀ hp (o.fresh_prepared) h₀
  refine ⟨hkept, ?_⟩
  have hself := EngineSession.process_id_self hk₀ hp h₀
  have hknown := fun q hq => EngineSession.process_id_known hk₀ hp h₀ (q := q) hq
  rw [EngineSession.ids, List.map_cons]
  exact congrArg₂ _ hself (List.map_congr_left hknown)

theorem ordersFor_append (symbol : List UInt8) (xs ys : List Submission) :
    ordersFor symbol (xs ++ ys) = ordersFor symbol xs ++ ordersFor symbol ys := by
  rw [ordersFor, List.filter_append, List.map_append]
  rfl

theorem waiting_pop_sublist {m' : BotManager} (hpop : m.popOrderForSymbol symbol = some (o, m'))
    (s : List UInt8) : m'.waiting s <+ m.waiting s := by
  obtain ⟨hself, hother, -⟩ := BotManager.popOrderForSymbol_spec hpop
  by_cases hs : s = symbol
  · rw [hs, hself]
    exact List.sublist_cons_self ..
  · rw [hother s hs]

theorem Accounted.snapshot (h : s.Accounted symbols) (snapshot : BookSnapshot) (draws : ℕ → Draws) :
    Accounted symbols { s with
      manager := (s.manager.onSnapshot snapshot draws).2
      submitted := s.submitted ++ (s.manager.onSnapshot snapshot draws).1 } where
  length := h.length
  kept := h.kept
  account := fun i symbol e hsymbol he => by
    obtain ⟨os, hos, hwait⟩ := BotManager.waiting_pushAll (s.manager.onSnapshot snapshot draws).1
      { s.manager with
        mBots := (BotManager.deliver snapshot draws 0 s.manager.updateCount s.manager.mBots).1
        updateCount := (BotManager.deliver snapshot draws 0 s.manager.updateCount
          s.manager.mBots).2.2 } symbol
    have hmanager : (s.manager.onSnapshot snapshot draws).2.waiting symbol =
        s.manager.waiting symbol ++ os := hwait
    rw [hmanager, ordersFor_append, List.map_append, List.map_append]
    have hswap : (s.manager.waiting symbol).map Order.orderId ++ os.map Order.orderId ++ e.ids ~
        (s.manager.waiting symbol).map Order.orderId ++ e.ids ++ os.map Order.orderId := by
      rw [List.append_assoc, List.append_assoc]
      exact List.perm_append_comm.append_left _
    exact hswap.subperm.trans ((h.account i symbol e hsymbol he).append (hos.map _).subperm)

theorem Accounted.pop {symbol : List UInt8} {m : BotManager} (h : s.Accounted symbols)
    (hpop : s.manager.popOrderForSymbol symbol = some (o, m)) :
    Accounted symbols { s with manager := m } where
  length := h.length
  kept := h.kept
  account := fun i symbol' e hsymbol he =>
    (((waiting_pop_sublist hpop symbol').map _).append_right _).subperm.trans
      (h.account i symbol' e hsymbol he)

theorem Accounted.process (h : s.Accounted symbols) (hnd : symbols.Nodup)
    (hsymbol : symbols[i]? = some symbol) (he : s.engines[i]? = some e)
    (hpop : s.manager.popOrderForSymbol symbol = some (o, m)) (hp : p ∉ e.known)
    (hc : EngineRun.processOrder p { e.call p o.prepared with shared } = some (out, t)) :
    Accounted symbols { s with
      manager := m
      engines := s.engines.set i { e with run := t, known := p :: e.known } } := by
  obtain ⟨hkept, hids⟩ := process_accounted (h.kept e (List.mem_of_getElem? he)) hp hc
  obtain ⟨hself, hother, -⟩ := BotManager.popOrderForSymbol_spec hpop
  refine ⟨(List.length_set ..).trans h.length, fun d hd => ?_, fun j symbol' d hs hd => ?_⟩
  · rcases List.mem_or_eq_of_mem_set hd with hd | rfl
    · exact h.kept d hd
    · exact hkept
  · rw [List.getElem?_set] at hd
    split at hd
    · rename_i hij
      subst hij
      rw [if_pos (List.getElem?_eq_some_iff.1 he).1] at hd
      obtain rfl := Option.some.inj hd
      obtain rfl := Option.some.inj (hsymbol.symm.trans hs)
      have haccount := h.account i symbol e hsymbol he
      rw [hself] at haccount
      change _ ++ EngineSession.ids _ <+~ _
      rw [hids]
      exact List.perm_middle.subperm.trans haccount
    · rename_i hij
      have hne : symbol' ≠ symbol := by
        rintro rfl
        have hlt := (List.getElem?_eq_some_iff.1 hsymbol).1
        exact hij ((List.getElem?_inj hlt hnd).1 (hsymbol.trans hs.symm))
      rw [hother symbol' hne]
      exact h.account j symbol' d hs hd

theorem Accounted.cancel (h : s.Accounted symbols) (id : UInt64) :
    Accounted symbols { s with engines := cancelLoop id s.engines } := by
  have hback : ∀ {j : ℕ} {d : EngineSession}, (cancelLoop id s.engines)[j]? = some d →
      ∃ e : EngineSession, s.engines[j]? = some e ∧
        (d = e ∨ d = { e with run := (e.run.cancelOrder id).2 }) := by
    intro j d hd
    have hj := (List.getElem?_eq_some_iff.1 hd).1
    rw [cancelLoop_length] at hj
    obtain ⟨d', hd', hcase⟩ := cancelLoop_at id (List.getElem?_eq_getElem hj)
    obtain rfl := Option.some.inj (hd'.symm.trans hd)
    exact ⟨_, List.getElem?_eq_getElem hj, hcase⟩
  refine ⟨(cancelLoop_length id s.engines).trans h.length, fun d hd => ?_,
    fun j symbol d hs hd => ?_⟩
  · obtain ⟨j, hj⟩ := List.getElem?_of_mem hd
    obtain ⟨e, he, hcase⟩ := hback hj
    exact (cancelLoop_kept (h.kept e (List.mem_of_getElem? he)) hcase).1
  · obtain ⟨e, he, hcase⟩ := hback hd
    have hids := (cancelLoop_kept (h.kept e (List.mem_of_getElem? he)) hcase).2
    change _ ++ d.ids <+~ _
    rw [hids]
    exact h.account j symbol e hs he

theorem Accounted.step (h : s.Accounted symbols) (hnd : symbols.Nodup)
    (hs : Step symbols s ev s') : s'.Accounted symbols := by
  cases hs with
  | snapshot snapshot draws => exact h.snapshot snapshot draws
  | process hsymbol he hpop hp hc => exact h.process hnd hsymbol he hpop hp hc
  | drop hpop => exact h.pop hpop
  | cancel id => exact h.cancel id

section Unique

variable (h : s.Accounted symbols) (hu : UniqueIds s.submitted)
include h hu

theorem Accounted.nodup (hsymbol : symbols[i]? = some symbol) (he : s.engines[i]? = some e) :
    ((s.manager.waiting symbol).map Order.orderId ++ e.ids).Nodup := by
  have hall : (s.submitted.map fun x => x.order.orderId).Nodup := List.pairwise_map.2 hu
  have hfor : ((ordersFor symbol s.submitted).map Order.orderId).Nodup := by
    rw [ordersFor, List.map_map]
    exact (List.filter_sublist.map _).nodup hall
  obtain ⟨l, hperm, hsub⟩ := h.account i symbol e hsymbol he
  exact hperm.nodup_iff.1 (hsub.nodup hfor)

omit hu in
theorem Accounted.origin (hsymbol : symbols[i]? = some symbol) (he : s.engines[i]? = some e)
    (hp : p ∈ e.known) : ∃ x ∈ s.submitted, x.order.symbol.cstr = symbol ∧
      x.order.orderId = (e.run.orders p).orderId := by
  have hmem : (e.run.orders p).orderId ∈ e.ids := List.mem_map.2 ⟨p, hp, rfl⟩
  have hsub := (h.account i symbol e hsymbol he).subset (List.mem_append_right _ hmem)
  obtain ⟨o, ho, hid⟩ := List.mem_map.1 hsub
  obtain ⟨x, hx, rfl⟩ := List.mem_map.1 ho
  obtain ⟨hx, hs⟩ := List.mem_filter.1 hx
  exact ⟨x, hx, of_decide_eq_true hs, hid⟩

theorem Accounted.cell_unique (hnd : symbols.Nodup) (he : s.engines[i]? = some e)
    (hd : s.engines[j]? = some d) (hp : p ∈ e.known) (hq : q ∈ d.known)
    (hid : (d.run.orders q).orderId = (e.run.orders p).orderId) : j = i ∧ q = p := by
  have hi := (List.getElem?_eq_some_iff.1 he).1
  have hj := (List.getElem?_eq_some_iff.1 hd).1
  rw [h.length] at hi hj
  have hsi := List.getElem?_eq_getElem hi
  have hsj := List.getElem?_eq_getElem hj
  obtain ⟨x, hx, hxs, hxid⟩ := h.origin hsi he hp
  obtain ⟨y, hy, hys, hyid⟩ := h.origin hsj hd hq
  have hxy : y = x := hu.eq_of_orderId hy hx (by rw [hxid, hyid, hid])
  have hji : j = i := (List.getElem?_inj hj hnd).1 (by rw [hsi, hsj, ← hxs, ← hys, hxy])
  subst hji
  obtain rfl := Option.some.inj (he.symm.trans hd)
  have hids : e.ids.Nodup := (List.nodup_append.1 (h.nodup hu hsi he)).2.1
  exact ⟨rfl, List.inj_on_of_nodup_map hids hq hp hid⟩

theorem Accounted.identified (hnd : symbols.Nodup) : s.Identified symbols where
  unique := hu
  cancels := fun id i e e' he he' p hp hne => by
    have hk := h.kept e (List.mem_of_getElem? he)
    obtain ⟨d, hd, hcase⟩ := cancelLoop_at id he
    obtain rfl := Option.some.inj (hd.symm.trans he')
    have hid := cancelLoop_changes hk hcase hne
    exact ⟨hid, fun j d hd q hq hqid => h.cell_unique hu hnd he hd hp hq (hqid.trans hid.symm)⟩
  indexes := fun i symbol e hsymbol he o ho => by
    cases hi : e.book.book.mOrderIndex o.orderId with
    | none => rfl
    | some loc =>
      obtain ⟨hk, hid, -⟩ := (h.kept e (List.mem_of_getElem? he)).indexed _ loc hi
      have hids : o.orderId ∈ e.ids := List.mem_map.2 ⟨_, hk, hid⟩
      have hwait : o.orderId ∈ (s.manager.waiting symbol).map Order.orderId :=
        List.mem_map.2 ⟨o, ho, rfl⟩
      exact absurd rfl ((List.nodup_append.1 (h.nodup hu hsymbol he)).2.2 _ hwait _ hids)

end Unique

/-- Every bot has numbers left in its block. -/
def HasRoom (s : Market) : Prop := ∀ b ∈ s.manager.mBots, b.Room

/-- No other bot of the class has submitted an order before. -/
def KeepsApart (s : Market) : MarketEvent → Prop
  | .snapshot xs => ∀ x ∈ xs, ∀ y ∈ s.submitted,
      classAt s.manager.mBots x.bot = classAt s.manager.mBots y.bot → x.bot = y.bot
  | _ => True

theorem Step.traced (hs : Step symbols s ev s') (h : Traced s.manager.mBots s.submitted) :
    Traced s'.manager.mBots s'.submitted := by
  cases hs with
  | snapshot snapshot draws =>
    change Traced (s.manager.onSnapshot snapshot draws).2.mBots _
    rw [BotManager.mBots_onSnapshot]
    exact BotManager.traced_deliver h
  | process hsymbol he hpop hp hc => rwa [← (BotManager.popOrderForSymbol_spec hpop).2.2] at h
  | drop hpop => rwa [← (BotManager.popOrderForSymbol_spec hpop).2.2] at h
  | cancel id => exact h

theorem Step.orderly (hs : Step symbols s ev s') (h : Orderly s.manager.mBots s.submitted)
    (hroom : s.HasRoom) (hc : s.KeepsApart ev) : Orderly s'.manager.mBots s'.submitted := by
  cases hs with
  | snapshot snapshot draws =>
    change Orderly (s.manager.onSnapshot snapshot draws).2.mBots _
    rw [BotManager.mBots_onSnapshot]
    exact BotManager.orderly_deliver h hroom hc
  | process hsymbol he hpop hp hc => rwa [← (BotManager.popOrderForSymbol_spec hpop).2.2] at h
  | drop hpop => rwa [← (BotManager.popOrderForSymbol_spec hpop).2.2] at h
  | cancel id => exact h

theorem Step.keepsApart (hs : Step symbols s ev s') (h : Traced s'.manager.mBots s'.submitted)
    (hu : UniqueIds s'.submitted) : s.KeepsApart ev := by
  cases hs with
  | snapshot snapshot draws =>
    intro x hx y hy hclass
    refine h.alone hu x (List.mem_append_right _ hx) y (List.mem_append_left _ hy) ?_
    change classAt (s.manager.onSnapshot snapshot draws).2.mBots _ = _
    rw [BotManager.mBots_onSnapshot, BotManager.classAt_deliver, BotManager.classAt_deliver]
    exact hclass
  | process => trivial
  | drop => trivial
  | cancel => trivial

section Start

theorem registered_eq (symbols : List (List UInt8)) :
    BotManager.registered symbols = { mBots := symbols.flatMap BotManager.botsFor } :=
  BotManager.foldl_registerBot (symbols.flatMap BotManager.botsFor) {}

theorem untouched_registered {b : TradingBot}
    (h : b ∈ (BotManager.registered symbols).mBots) : b.Untouched := by
  rw [registered_eq] at h
  obtain ⟨symbol, -, hb⟩ := List.mem_flatMap.1 h
  simp only [BotManager.botsFor, List.mem_cons, List.not_mem_nil, or_false] at hb
  rcases hb with rfl | rfl | rfl | rfl | rfl <;> exact ⟨rfl, rfl⟩

theorem traced_start (symbols : List (List UInt8)) :
    Traced (BotManager.registered symbols).mBots [] where
  known := fun x hx => by cases hx
  first := fun i b hb => .inl ⟨untouched_registered (List.mem_of_getElem? hb), fun x hx => by cases hx⟩

theorem orderly_start (hnd : symbols.Nodup) :
    Orderly (BotManager.registered symbols).mBots [] where
  known := fun x hx => by cases hx
  profile := by
    rw [registered_eq, List.map_flatMap, List.nodup_flatMap]
    refine ⟨fun symbol _ => ?_, hnd.imp fun hne x hx hy => hne ?_⟩
    · simp [BotManager.botsFor, TradingBot.botClass, Strategy.botClass]
    · simp only [BotManager.botsFor, List.map_cons, List.map_nil, List.mem_cons, List.not_mem_nil,
        or_false] at hx hy
      have hfst : ∀ {s : List UInt8}, (x = (s, BotClass.marketMaker) ∨ x = (s, .spread) ∨
          x = (s, .randomWalk) ∨ x = (s, .meanReversion) ∨ x = (s, .momentum)) → x.1 = s := by
        rintro s (rfl | rfl | rfl | rfl | rfl) <;> rfl
      exact (hfst hx).symm.trans (hfst hy)
  started := fun b hb => (untouched_registered hb).orderId.ge
  block := fun i b hb o ho => by cases ho
  distinct := fun i => .nil
  alone := fun x hx => by cases hx

theorem accounted_start (symbols : List (List UInt8)) (shared : Collaborators) :
    (start symbols shared).Accounted symbols where
  length := List.length_map _
  kept := fun e he => by
    obtain ⟨symbol, -, rfl⟩ := List.mem_map.1 he
    exact EngineSession.kept_start symbol shared
  account := fun i symbol e hs he => by
    have hwait : (start symbols shared).manager.waiting symbol = [] := by
      rw [start, registered_eq]
      rfl
    obtain ⟨symbol', -, rfl⟩ := List.mem_map.1 (List.mem_of_getElem? he)
    rw [hwait]
    exact List.nil_subperm

end Start

/-- As long as the bots have room left in their blocks, an id names one order throughout a run if no
bot submits an order after another one of its class; and an id never does otherwise. -/
theorem ids_identify (hnd : symbols.Nodup) (h : Runs (Step symbols) (start symbols shared) ts s) :
    ((∀ x ∈ ts, x.1.HasRoom ∧ x.1.KeepsApart x.2.1) → ∀ x ∈ ts, x.2.2.Identified symbols) ∧
    ((∀ x ∈ ts, x.2.2.Identified symbols) → ∀ x ∈ ts, x.1.KeepsApart x.2.1) := by
  constructor
  · rintro hall ⟨u, ev, t⟩ hx
    obtain ⟨hs, us, hus, hsub⟩ := h.of_mem hx
    have haccount := hus.invariant (I := Accounted symbols) (accounted_start symbols shared)
      fun _ _ _ ha hr => ha.step hnd hr
    have horderly := hus.invariant_of (I := fun s => Orderly s.manager.mBots s.submitted)
      (C := fun x => x.1.HasRoom ∧ x.1.KeepsApart x.2.1) (orderly_start hnd)
      (fun _ _ _ ho hr hc => hr.orderly ho hc.1 hc.2) fun x hx => hall x (hsub x hx)
    obtain ⟨hroom, hapart⟩ := hall _ hx
    exact (haccount.step hnd hs).identified (hs.orderly horderly hroom hapart).unique hnd
  · rintro hall ⟨u, ev, t⟩ hx
    obtain ⟨hs, us, hus, -⟩ := h.of_mem hx
    have htraced := hus.invariant (I := fun s => Traced s.manager.mBots s.submitted)
      (traced_start symbols) fun _ _ _ ht hr => hr.traced ht
    exact hs.keepsApart (hs.traced htraced) (hall _ hx).unique

instance (s : Market) : Decidable s.HasRoom :=
  inferInstanceAs (Decidable (∀ b ∈ s.manager.mBots, b.Room))

instance (s : Market) : DecidablePred s.KeepsApart := fun ev => by
  cases ev <;> unfold KeepsApart <;> infer_instance

inductive Request
  | snapshot (snapshot : BookSnapshot) (draws : ℕ → Draws)
  | process (i : ℕ) (p : OrderPtr)
  | cancel (id : UInt64)

def perform (symbols : List (List UInt8)) (s : Market) : Request → Option (MarketEvent × Market)
  | .snapshot snapshot draws => some (.snapshot (s.manager.onSnapshot snapshot draws).1,
      { s with
        manager := (s.manager.onSnapshot snapshot draws).2
        submitted := s.submitted ++ (s.manager.onSnapshot snapshot draws).1 })
  | .process i p =>
    match symbols[i]?, s.engines[i]? with
    | some symbol, some e =>
      match s.manager.popOrderForSymbol symbol with
      | some (o, m) =>
        if p ∉ e.known then
          (EngineRun.processOrder p { e.call p o.prepared with shared := {} }).map fun r =>
            (.process i p o, { s with
              manager := m
              engines := s.engines.set i { e with run := r.2, known := p :: e.known } })
        else none
      | none => none
    | _, _ => none
  | .cancel id => some (.cancel id, { s with engines := cancelLoop id s.engines })

theorem perform_step {r : Request} (h : s.perform symbols r = some (ev, s')) :
    Step symbols s ev s' := by
  cases r with
  | snapshot snapshot draws =>
    obtain ⟨rfl, rfl⟩ := Prod.mk.inj (Option.some.inj h)
    exact .snapshot snapshot draws
  | process i p =>
    simp only [perform] at h
    split at h
    · rename_i symbol e hsymbol he
      split at h
      · rename_i o m hpop
        split at h
        · rename_i hp
          obtain ⟨⟨out, t⟩, hc, he'⟩ := Option.map_eq_some_iff.1 h
          obtain ⟨rfl, rfl⟩ := Prod.mk.inj he'
          exact .process hsymbol he hpop hp hc
        · cases h
      · cases h
    · cases h
  | cancel id =>
    obtain ⟨rfl, rfl⟩ := Prod.mk.inj (Option.some.inj h)
    exact .cancel id

theorem exists_run (symbols : List (List UInt8)) (rs : List Request)
    (ok : List (Market × MarketEvent × Market) → Market → Bool)
    (h : (Runs.play (perform symbols) (start symbols {}) rs).any (fun x => ok x.1 x.2) = true) :
    ∃ ts s, Runs (Step symbols) (start symbols {}) ts s ∧ ok ts s = true :=
  Runs.exists_of_play (fun _ _ _ _ => perform_step) h

def twoSymbols : List (List UInt8) := [[65, 65, 80, 76], [77, 83, 70, 84]]

/-- A snapshot on which the random walk bot of the symbol buys at 100. -/
def buySignal (symbol : List UInt8) : Request :=
  .snapshot { symbol := .ofString symbol, bestAsk := 100 } fun _ => { action := 0 }

/-- One bot of two symbols submits an order. -/
theorem ids_identify_one : ∃ ts s, Runs (Step twoSymbols) (start twoSymbols {}) ts s ∧
    s.submitted.length = 1 ∧ ∀ x ∈ ts, x.2.2.Identified twoSymbols := by
  obtain ⟨ts, s, h, hok⟩ := exists_run twoSymbols
    [buySignal [65, 65, 80, 76], .process 0 1, .cancel 20001]
    (fun ts s => s.submitted.length == 1 &&
      ts.all fun x => decide (x.1.HasRoom ∧ x.1.KeepsApart x.2.1)) (by decide +kernel)
  rw [Bool.and_eq_true, beq_iff_eq, List.all_eq_true] at hok
  exact ⟨ts, s, h, hok.1, (ids_identify (by decide) h).1 fun x hx => of_decide_eq_true (hok.2 x hx)⟩

/-- The random walk bots of two symbols submit an order each: both carry the id 20001, and a request to
cancel it takes the order of the first symbol, whichever was meant. -/
theorem two_symbols_share_id : ∃ ts s, Runs (Step twoSymbols) (start twoSymbols {}) ts s ∧
    (s.submitted.map fun x => x.order.orderId) = [20001, 20001] ∧
    (s.submitted.map fun x => x.order.symbol.cstr) = twoSymbols ∧
    (s.engines.map fun e => (e.run.orders 1).status) = [.CANCELLED, .NEW] ∧
    ¬ s.Identified twoSymbols := by
  obtain ⟨ts, s, h, hok⟩ := exists_run twoSymbols
    [buySignal [65, 65, 80, 76], buySignal [77, 83, 70, 84], .process 0 1, .process 1 1,
      .cancel 20001]
    (fun _ s => (s.submitted.map fun x => x.order.orderId) == [20001, 20001] &&
      (s.submitted.map fun x => x.order.symbol.cstr) == twoSymbols &&
      (s.engines.map fun e => (e.run.orders 1).status) == [.CANCELLED, .NEW]) (by decide +kernel)
  simp only [Bool.and_eq_true, beq_iff_eq] at hok
  obtain ⟨⟨hids, hsymbols⟩, hstatus⟩ := hok
  refine ⟨ts, s, h, hids, hsymbols, hstatus, fun hs => ?_⟩
  have hnd : (s.submitted.map fun x => x.order.orderId).Nodup := List.pairwise_map.2 hs.unique
  rw [hids] at hnd
  exact absurd hnd (by decide)

end Market

end Velox
