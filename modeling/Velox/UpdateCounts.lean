import Velox.OrderIds
import Velox.Lib.Blocks
import Velox.Lib.Runs

namespace Velox
set_option autoImplicit true

/-- `on_snapshot` gets past its first return. -/
def MarketMakerBot.Due (updateCount : Int32) : Prop := (updateCount + 1) % 10 = 0

/-- A snapshot, with what the generators give the bot at each place. -/
abbrev Delivery := BookSnapshot × (ℕ → Draws)

def Delivery.symbol (d : Delivery) : List UInt8 := d.1.symbol.cstr

def own (symbol : List UInt8) (ds : List Delivery) : List Delivery :=
  ds.filter fun d => d.symbol = symbol

def TradingBot.makerSymbol (b : TradingBot) : Option (List UInt8) :=
  if b.botClass = .marketMaker then some b.mSymbol else none

def makerSymbols (bots : List TradingBot) : List (List UInt8) :=
  bots.filterMap TradingBot.makerSymbol

/-- The symbols of the snapshots that reach a market maker. -/
def served (bots : List TradingBot) (ds : List Delivery) : List (List UInt8) :=
  ds.filterMap fun d => if d.symbol ∈ makerSymbols bots then some d.symbol else none

theorem MarketMakerBot.onSnapshot_congr {c c' : Int32} (h : Due c ↔ Due c') (symbol : List UInt8)
    (snapshot : BookSnapshot) (b : MarketMakerBot) :
    (b.onSnapshot symbol snapshot c).1 = (b.onSnapshot symbol snapshot c').1 ∧
      (b.onSnapshot symbol snapshot c).2.1 = (b.onSnapshot symbol snapshot c').2.1 := by
  rw [Due, Due] at h
  rw [onSnapshot, onSnapshot]
  by_cases hc : (c + 1) % 10 = 0
  · rw [if_neg (not_not.2 hc), if_neg (not_not.2 (h.1 hc))]
    exact ⟨rfl, rfl⟩
  · rw [if_pos hc, if_pos (h.not.1 hc)]
    exact ⟨rfl, rfl⟩

namespace BotManager

def registerAll (bots : List TradingBot) : BotManager :=
  bots.foldl (fun m bot => m.registerBot bot) {}

def deliverAll (bots : List TradingBot) (ds : List Delivery) : BotManager × List (List Submission) :=
  Runs.transduce (fun m d => (m.onSnapshot d.1 d.2).swap) (registerAll bots) ds

def ordersOf (bots : List TradingBot) (ds : List Delivery) (k : ℕ) : List Order :=
  (deliverAll bots ds).2.flatMap (submittedBy k)

/-- The count of updates that the bot at a place finds on a delivery behind others. -/
def countOn (bots : List TradingBot) (k : ℕ) (pre : List Delivery) (d : Delivery) : Int32 :=
  countAt d.1 d.2 0 (deliverAll bots pre).1.updateCount (deliverAll bots pre).1.mBots k

/-- The bot at a place is a market maker of a symbol. -/
def MakerAt (bots : List TradingBot) (k : ℕ) (symbol : List UInt8) : Prop :=
  ∃ b, bots[k]? = some ⟨symbol, .marketMaker b⟩

/-- A market maker acts on exactly every tenth snapshot of its own, no increment of the count
overflows when it is called, and it submits what it submits when only its own snapshots are
delivered. -/
structure Undisturbed (bots : List TradingBot) (ds : List Delivery) (k : ℕ) (symbol : List UInt8) :
    Prop where
  defined : History.Each (fun pre d => d.symbol = symbol → countOn bots k pre d ≠ Int32.maxValue) ds
  tenth : History.Each (fun pre d => d.symbol = symbol →
    (MarketMakerBot.Due (countOn bots k pre d) ↔ 10 ∣ (own symbol pre).length + 1)) ds
  orders : ordersOf bots ds k = ordersOf bots (own symbol ds) k

variable {bots bs : List TradingBot} {ds pre : List Delivery} {d : Delivery} {k n : ℕ}
  {symbol : List UInt8} {b : MarketMakerBot} {i : ℕ} {c c' : Int32}

theorem registerAll_eq (bots : List TradingBot) : registerAll bots = { mBots := bots } :=
  foldl_registerBot bots {}

section Count

theorem notify_count (snapshot : BookSnapshot) (draws : Draws) (c : Int32) (b : TradingBot) :
    (notify snapshot draws c b).2.2 =
      c + Int32.ofNat (b.makerSymbol.toList.count snapshot.symbol.cstr) := by
  obtain ⟨symbol, strategy⟩ := b
  rw [notify]
  by_cases hs : symbol = snapshot.symbol.cstr
  · rw [if_pos hs]
    cases strategy with
    | marketMaker m =>
      have hone : ([symbol] : List (List UInt8)).count snapshot.symbol.cstr = 1 := by
        rw [hs, List.count_singleton_self]
      change (m.onSnapshot symbol snapshot c).2.2 = c + Int32.ofNat (List.count _ [symbol])
      rw [hone, MarketMakerBot.onSnapshot]
      split <;> rfl
    | spread m => exact (Int32.add_zero c).symm
    | randomWalk m => exact (Int32.add_zero c).symm
    | meanReversion m => exact (Int32.add_zero c).symm
    | momentum m => exact (Int32.add_zero c).symm
  · have hzero :
        (TradingBot.makerSymbol ⟨symbol, strategy⟩).toList.count snapshot.symbol.cstr = 0 := by
      rw [List.count_eq_zero, TradingBot.makerSymbol]
      split
      · exact fun hm => hs (List.mem_singleton.1 hm).symm
      · exact List.not_mem_nil
    rw [if_neg hs, hzero]
    exact (Int32.add_zero c).symm

theorem makerSymbols_append (bs bs' : List TradingBot) :
    makerSymbols (bs ++ bs') = makerSymbols bs ++ makerSymbols bs' := List.filterMap_append

theorem makerSymbols_singleton (b : TradingBot) : makerSymbols [b] = b.makerSymbol.toList := by
  rw [makerSymbols, List.filterMap_cons]
  cases b.makerSymbol <;> rfl

theorem deliver_count (snapshot : BookSnapshot) (draws : ℕ → Draws) (i : ℕ) (c : Int32)
    (bs : List TradingBot) : (deliver snapshot draws i c bs).2.2 =
      c + Int32.ofNat ((makerSymbols bs).count snapshot.symbol.cstr) := by
  induction bs generalizing i c with
  | nil => exact (Int32.add_zero c).symm
  | cons b bs ih =>
    rw [deliver_cons, ih, notify_count, ← List.singleton_append, makerSymbols_append,
      makerSymbols_singleton, List.count_append, Int32.ofNat_add, Int32.add_assoc]

theorem makerSymbols_deliver (snapshot : BookSnapshot) (draws : ℕ → Draws) (c : Int32) :
    makerSymbols (deliver snapshot draws 0 c bots).1 = makerSymbols bots := by
  have hmap : (deliver snapshot draws 0 c bots).1.map TradingBot.makerSymbol =
      bots.map TradingBot.makerSymbol :=
    profile_deliver fun b b' hs hc => by
      rw [TradingBot.makerSymbol, hs, hc, TradingBot.makerSymbol]
  rw [makerSymbols, ← Function.id_comp TradingBot.makerSymbol, ← List.filterMap_map, hmap,
    List.filterMap_map, Function.id_comp, makerSymbols]

end Count

theorem deliverAll_snoc (bots : List TradingBot) (ds : List Delivery) (d : Delivery) :
    deliverAll bots (ds ++ [d]) = (((deliverAll bots ds).1.onSnapshot d.1 d.2).2,
      (deliverAll bots ds).2 ++ [((deliverAll bots ds).1.onSnapshot d.1 d.2).1]) :=
  Runs.transduce_snoc _ _ ds d

theorem ordersOf_snoc (bots : List TradingBot) (ds : List Delivery) (d : Delivery) (k : ℕ) :
    ordersOf bots (ds ++ [d]) k = ordersOf bots ds k ++
      submittedBy k ((deliverAll bots ds).1.onSnapshot d.1 d.2).1 := by
  rw [ordersOf, deliverAll_snoc, List.flatMap_append, List.flatMap_singleton, ordersOf]

theorem own_snoc (symbol : List UInt8) (ds : List Delivery) (d : Delivery) :
    own symbol (ds ++ [d]) = own symbol ds ++ if d.symbol = symbol then [d] else [] := by
  rw [own, List.filter_append, List.filter_cons]
  by_cases h : d.symbol = symbol
  · rw [if_pos (decide_eq_true h), if_pos h]
    rfl
  · rw [if_neg (by rwa [decide_eq_true_eq]), if_neg h]
    rfl

theorem own_own (symbol : List UInt8) (ds : List Delivery) :
    own symbol (own symbol ds) = own symbol ds := by
  rw [own, own, List.filter_filter]
  simp only [Bool.and_self]

theorem served_snoc (bots : List TradingBot) (ds : List Delivery) (d : Delivery) :
    served bots (ds ++ [d]) =
      served bots ds ++ if d.symbol ∈ makerSymbols bots then [d.symbol] else [] := by
  rw [served, List.filterMap_append, List.filterMap_cons]
  split <;> rename_i h <;> split at h <;> cases h
  · rw [if_neg ‹_›]
    rfl
  · rw [if_pos ‹_›]
    rfl

theorem notify_maker (d : Delivery) (draws : Draws) (c : Int32) :
    notify d.1 draws c ⟨symbol, .marketMaker b⟩ =
      if symbol = d.symbol then
        (⟨symbol, .marketMaker (b.onSnapshot symbol d.1 c).1⟩, (b.onSnapshot symbol d.1 c).2)
      else (⟨symbol, .marketMaker b⟩, [], c) := rfl

theorem maker_onSnapshot (m : BotManager) (d : Delivery)
    (h : m.mBots[k]? = some ⟨symbol, .marketMaker b⟩) :
    (m.onSnapshot d.1 d.2).2.mBots[k]? = some ⟨symbol, .marketMaker
        (if symbol = d.symbol then
          (b.onSnapshot symbol d.1 (countAt d.1 d.2 0 m.updateCount m.mBots k)).1 else b)⟩ ∧
      submittedBy k (m.onSnapshot d.1 d.2).1 =
        if symbol = d.symbol then
          (b.onSnapshot symbol d.1 (countAt d.1 d.2 0 m.updateCount m.mBots k)).2.1 else [] := by
  obtain ⟨hbot, hos⟩ := deliver_at d.1 d.2 0 m.updateCount h
  rw [Nat.zero_add, notify_maker] at hbot hos
  rw [mBots_onSnapshot, hbot]
  refine ⟨?_, hos.trans ?_⟩
  · split <;> rfl
  · split <;> rfl

theorem MakerAt.deliverAll (h : MakerAt bots k symbol) (ds : List Delivery) :
    MakerAt (deliverAll bots ds).1.mBots k symbol := by
  induction ds using List.reverseRecOn with
  | nil =>
    rw [BotManager.deliverAll, Runs.transduce, registerAll_eq]
    exact h
  | append_singleton ds d ih =>
    obtain ⟨b, hb⟩ := ih
    rw [deliverAll_snoc]
    exact ⟨_, (maker_onSnapshot _ d hb).1⟩

theorem MakerAt.mem (h : MakerAt bots k symbol) : symbol ∈ makerSymbols bots := by
  obtain ⟨b, hb⟩ := h
  exact List.mem_filterMap.2 ⟨_, List.mem_of_getElem? hb, rfl⟩

theorem exists_makerAt (h : symbol ∈ makerSymbols bots) : ∃ k, MakerAt bots k symbol := by
  obtain ⟨⟨s, strategy⟩, hmem, hs⟩ := List.mem_filterMap.1 h
  obtain ⟨k, hk⟩ := List.getElem?_of_mem hmem
  rw [TradingBot.makerSymbol] at hs
  split at hs
  · rename_i hc
    cases hs
    cases strategy with
    | marketMaker m => exact ⟨k, m, hk⟩
    | spread m => cases hc
    | randomWalk m => cases hc
    | meanReversion m => cases hc
    | momentum m => cases hc
  · cases hs

theorem makerSymbols_deliverAll (bots : List TradingBot) (ds : List Delivery) :
    makerSymbols (deliverAll bots ds).1.mBots = makerSymbols bots := by
  induction ds using List.reverseRecOn with
  | nil => rw [deliverAll, Runs.transduce, registerAll_eq]
  | append_singleton ds d ih =>
    rw [deliverAll_snoc, mBots_onSnapshot, makerSymbols_deliver, ih]

section Distinct

variable (hbots : (makerSymbols bots).Nodup)
include hbots

theorem updateCount_deliverAll (ds : List Delivery) :
    (deliverAll bots ds).1.updateCount = Int32.ofNat (served bots ds).length := by
  induction ds using List.reverseRecOn with
  | nil =>
    rw [deliverAll, Runs.transduce, registerAll_eq]
    rfl
  | append_singleton ds d ih =>
    rw [deliverAll_snoc, updateCount_onSnapshot, deliver_count, ih, makerSymbols_deliverAll,
      hbots.count, ← Int32.ofNat_add, served_snoc, List.length_append, Delivery.symbol]
    split <;> rfl

theorem countOn_eq (h : MakerAt bots k symbol) (hd : d.symbol = symbol) (pre : List Delivery) :
    countOn bots k pre d = Int32.ofNat (served bots pre).length := by
  obtain ⟨b, hb⟩ := h.deliverAll pre
  have hsymbols := makerSymbols_deliverAll bots pre
  have hsplit : (deliverAll bots pre).1.mBots = (deliverAll bots pre).1.mBots.take k ++
      ([⟨symbol, .marketMaker b⟩] ++ (deliverAll bots pre).1.mBots.drop (k + 1)) := by
    obtain ⟨hk, hget⟩ := List.getElem?_eq_some_iff.1 hb
    rw [List.singleton_append, ← hget, ← List.drop_eq_getElem_cons hk, List.take_append_drop]
  have hnone : (makerSymbols ((deliverAll bots pre).1.mBots.take k)).count d.1.symbol.cstr = 0 := by
    rw [List.count_eq_zero]
    intro hm
    rw [hsplit, makerSymbols_append, makerSymbols_append, makerSymbols_singleton] at hsymbols
    rw [← hsymbols] at hbots
    refine (List.nodup_append.1 hbots).2.2 _ hm _ ?_ rfl
    exact List.mem_append_left _ (List.mem_singleton.2 hd)
  rw [countOn, countAt, deliver_count, hnone, updateCount_deliverAll hbots]
  exact Int32.add_zero _

end Distinct

theorem count_served (h : symbol ∈ makerSymbols bots) (ds : List Delivery) :
    (served bots ds).count symbol = (own symbol ds).length := by
  induction ds using List.reverseRecOn with
  | nil => rfl
  | append_singleton ds d ih =>
    rw [served_snoc, own_snoc, List.count_append, List.length_append, ih]
    by_cases hd : d.symbol = symbol
    · rw [if_pos (hd ▸ h), if_pos hd, hd, List.count_singleton_self, List.length_singleton]
    · rw [if_neg hd]
      split
      · rw [List.count_singleton, if_neg (by rwa [beq_iff_eq])]
        rfl
      · rfl

/-- A condition on the snapshots that reach a market maker is one on the own snapshots of each. -/
theorem each_served {P : List (List UInt8) → List UInt8 → Prop} :
    History.Each P (served bots ds) ↔ ∀ k symbol, MakerAt bots k symbol →
      History.Each (fun pre d => d.symbol = symbol → P (served bots pre) symbol) ds := by
  rw [served, History.each_filterMap]
  constructor
  · intro h k symbol hk pre d hpre hd
    refine h pre d hpre symbol ?_
    rw [if_pos (hd ▸ hk.mem), hd]
    rfl
  · intro h pre d hpre symbol hsymbol
    split at hsymbol
    · rename_i hmem
      cases hsymbol
      obtain ⟨k, hk⟩ := exists_makerAt hmem
      exact h k d.symbol hk pre d hpre rfl
    · cases hsymbol

theorem due_iff (h : n + 1 < 2 ^ 31) : MarketMakerBot.Due (Int32.ofNat n) ↔ 10 ∣ n + 1 := by
  have hone : Int32.ofNat n + 1 = Int32.ofNat (n + 1) := (Int32.ofNat_add n 1).symm
  rw [MarketMakerBot.Due, hone, ← Int32.toInt_inj, Int32.toInt_mod, Int32.toInt_ofNat_of_lt h]
  change ((n + 1 : ℕ) : ℤ).tmod ((10 : ℕ) : ℤ) = 0 ↔ _
  rw [← Int.ofNat_tmod]
  omega

theorem ne_maxValue_iff {xs : List (List UInt8)} :
    History.Each (fun pre _ => Int32.ofNat pre.length ≠ Int32.maxValue) xs ↔
      xs.length < 2 ^ 31 := by
  constructor
  · intro h
    by_contra hle
    have hk : 2 ^ 31 - 1 < xs.length := by omega
    refine h (xs.take (2 ^ 31 - 1)) xs[2 ^ 31 - 1] ?_ ?_
    · rw [List.take_append_getElem]
      exact List.take_prefix ..
    · rw [List.length_take, Nat.min_eq_left hk.le]
      rfl
  · intro h pre x hpre he
    have hle := hpre.length_le
    rw [List.length_append, List.length_singleton] at hle
    have hmax := congrArg Int32.toInt he
    rw [Int32.toInt_ofNat_of_lt (by omega)] at hmax
    have hval : Int32.maxValue.toInt = 2 ^ 31 - 1 := rfl
    omega

section Distinct

variable (hbots : (makerSymbols bots).Nodup)
include hbots

theorem defined_iff (ds : List Delivery) : (∀ k symbol, MakerAt bots k symbol → History.Each
      (fun pre d => d.symbol = symbol → countOn bots k pre d ≠ Int32.maxValue) ds) ↔
    (served bots ds).length < 2 ^ 31 := by
  rw [← ne_maxValue_iff, each_served]
  refine forall₃_congr fun k symbol hk => History.each_congr fun pre d _ => ?_
  refine forall_congr' fun hd => ?_
  rw [countOn_eq hbots hk hd]

/-- Market makers act on every tenth of their own snapshots when these are in step with all. -/
theorem tenth_iff (hlen : (served bots ds).length < 2 ^ 31) :
    (∀ k symbol, MakerAt bots k symbol → History.Each (fun pre d => d.symbol = symbol →
      (MarketMakerBot.Due (countOn bots k pre d) ↔ 10 ∣ (own symbol pre).length + 1)) ds) ↔
    Blocks.InStep 10 (served bots ds) := by
  rw [Blocks.InStep, each_served]
  refine forall₃_congr fun k symbol hk => History.each_congr fun pre d hpre => ?_
  refine forall_congr' fun hd => ?_
  have hprefix : served bots (pre ++ [d]) <+: served bots ds := hpre.filterMap _
  have hle := hprefix.length_le
  rw [served_snoc, if_pos (hd ▸ hk.mem), List.length_append, List.length_singleton] at hle
  rw [countOn_eq hbots hk hd, due_iff (by omega), ← count_served hk.mem]

end Distinct

/-- Where a market maker is due on the same snapshots of its own, with or without the others, it is
the same and submits the same. -/
theorem agrees_alone (hk : MakerAt bots k symbol)
    (hds : History.Each (fun pre d => d.symbol = symbol →
      (MarketMakerBot.Due (countOn bots k pre d) ↔ 10 ∣ (own symbol pre).length + 1)) ds)
    (halone : History.Each (fun pre d => d.symbol = symbol →
      (MarketMakerBot.Due (countOn bots k pre d) ↔ 10 ∣ (own symbol pre).length + 1))
      (own symbol ds)) :
    (deliverAll bots ds).1.mBots[k]? = (deliverAll bots (own symbol ds)).1.mBots[k]? ∧
      ordersOf bots ds k = ordersOf bots (own symbol ds) k := by
  induction ds using List.reverseRecOn with
  | nil => exact ⟨rfl, rfl⟩
  | append_singleton ds d ih =>
    obtain ⟨hds, hd⟩ := History.each_snoc.1 hds
    obtain ⟨b, hb⟩ := hk.deliverAll ds
    by_cases hs : d.symbol = symbol
    · rw [own_snoc, if_pos hs] at halone ⊢
      obtain ⟨halone, hd'⟩ := History.each_snoc.1 halone
      obtain ⟨hbot, hos⟩ := ih hds halone
      rw [own_own] at hd'
      have hdue := (hd hs).trans (hd' hs).symm
      obtain ⟨hnext, horders⟩ := MarketMakerBot.onSnapshot_congr hdue symbol d.1 b
      obtain ⟨hbot₁, hos₁⟩ := maker_onSnapshot _ d hb
      obtain ⟨hbot₂, hos₂⟩ := maker_onSnapshot _ d (hbot ▸ hb)
      rw [if_pos hs.symm] at hbot₁ hos₁ hbot₂ hos₂
      rw [ordersOf_snoc, ordersOf_snoc, deliverAll_snoc, deliverAll_snoc, hbot₁, hbot₂, hos₁, hos₂,
        hos]
      exact ⟨congrArg (fun b => some (TradingBot.mk symbol (.marketMaker b))) hnext,
        congrArg (ordersOf bots (own symbol ds) k ++ ·) horders⟩
    · rw [own_snoc, if_neg hs, List.append_nil] at halone ⊢
      obtain ⟨hbot, hos⟩ := ih hds halone
      obtain ⟨hbot₁, hos₁⟩ := maker_onSnapshot _ d hb
      rw [ordersOf_snoc, deliverAll_snoc, hbot₁, hos₁, if_neg (Ne.symm hs), if_neg (Ne.symm hs),
        List.append_nil, ← hbot, hb]
      exact ⟨rfl, hos⟩

/-- The market makers are undisturbed in a run exactly when the snapshots that reach one come in
blocks of ten for the same one, the last block apart, and are too few to overflow the count. -/
theorem undisturbed_iff (hbots : (makerSymbols bots).Nodup) (ds : List Delivery) :
    (∀ k symbol, MakerAt bots k symbol → Undisturbed bots ds k symbol) ↔
      (served bots ds).length < 2 ^ 31 ∧ Blocks 10 (served bots ds) := by
  constructor
  · intro h
    have hlen : (served bots ds).length < 2 ^ 31 :=
      (defined_iff hbots ds).1 fun k symbol hk => (h k symbol hk).defined
    refine ⟨hlen, (Blocks.inStep_iff (by decide)).1 ?_⟩
    exact (tenth_iff hbots hlen).1 fun k symbol hk => (h k symbol hk).tenth
  · rintro ⟨hlen, hblocks⟩ k symbol hk
    have htenth := (tenth_iff hbots hlen).2 ((Blocks.inStep_iff (by decide)).2 hblocks) k symbol hk
    have hsub : (served bots (own symbol ds)).Sublist (served bots ds) :=
      List.filter_sublist.filterMap _
    have hsame : ∀ s ∈ served bots (own symbol ds), s = symbol := by
      intro s hs
      obtain ⟨d, hd, hds⟩ := List.mem_filterMap.1 hs
      split at hds
      · cases hds
        exact of_decide_eq_true (List.mem_filter.1 hd).2
      · cases hds
    have halone := (tenth_iff hbots (hsub.length_le.trans_lt hlen)).2 (Blocks.inStep_of_eq hsame) k
      symbol hk
    exact ⟨(defined_iff hbots ds).2 hlen k symbol hk, htenth, (agrees_alone hk htenth halone).2⟩

theorem Undisturbed.orders_eq {ds' : List Delivery} (h : Undisturbed bots ds k symbol)
    (h' : Undisturbed bots ds' k symbol) (hown : own symbol ds = own symbol ds') :
    ordersOf bots ds k = ordersOf bots ds' k := by
  rw [h.orders, hown, h'.orders]

def twoMakers : List TradingBot :=
  [⟨[65], .marketMaker {}⟩, ⟨[66], .marketMaker {}⟩]

def emptyDelivery (symbol : List UInt8) : Delivery :=
  ({ symbol := .ofChars symbol, bestAsk := Int64.maxValue }, fun _ => {})

/-- Ten snapshots of one symbol, and then five of the other one. -/
def oneBlock : List (List UInt8) := List.replicate 10 [65] ++ List.replicate 5 [66]

theorem undisturbed_one_block : Undisturbed twoMakers (oneBlock.map emptyDelivery) 0 [65] := by
  have hserved : served twoMakers (oneBlock.map emptyDelivery) = oneBlock := by decide +kernel
  refine (undisturbed_iff (by decide) _).2 ?_ 0 [65] ⟨{}, rfl⟩
  rw [hserved]
  exact ⟨by decide, .block [65] (.rest (by decide))⟩

/-- With two symbols in turn, the first market maker is never due when it is called, and places no
order on its tenth snapshot. -/
theorem silenced_in_turn : ¬ ∀ (bots : List TradingBot) (ds : List Delivery),
    (makerSymbols bots).Nodup → ∀ k symbol, MakerAt bots k symbol →
      Undisturbed bots ds k symbol := by
  intro h
  have horders := (h twoMakers
    (([65] :: (List.replicate 9 [[66], [65]]).flatten).map emptyDelivery) (by decide) 0 [65]
    ⟨{}, rfl⟩).orders
  have hlength := congrArg List.length horders
  revert hlength
  decide +kernel

end BotManager

end Velox
