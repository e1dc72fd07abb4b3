import Velox.ReportIntegrity
import Velox.Lib.InTurn

namespace Velox
set_option autoImplicit true

namespace ExecutionGateway

/-- A call of `send_report` that leaves the choice of the worker to the gateway. -/
def Routes (g : ExecutionGateway) (c : ExecutionReport × Int32) (g' : ExecutionGateway) : Prop :=
  c.2 < 0 ∧ ∃ ok, g.sendReport c.1 c.2 = some (ok, g')

def targets (ts : List (ExecutionGateway × (ExecutionReport × Int32) × ExecutionGateway)) :
    List (Option ℕ) :=
  ts.map fun x => x.1.target x.2.1.2

/-- Every call selects one of the workers, and as many consecutive calls as there are workers select
distinct ones. -/
structure Fair (workers : ℕ) (selected : List (Option ℕ)) : Prop where
  valid : ∀ t ∈ selected, ∃ w < workers, t = some w
  distinct : ∀ i, i + workers ≤ selected.length → ((selected.drop i).take workers).Nodup

/-- So many workers and so many calls that the wrapping of the cursor does not show. -/
def KeepsTurn (workers calls : ℕ) : Prop :=
  workers < 2 ^ 31 ∧
      (calls ≤ 2 ^ 31 ∨ workers ∣ 2 ^ 64 - 2 ^ 32 ∧ (calls ≤ 2 ^ 32 ∨ workers ∣ 2 ^ 32)) ∨
    2 ^ 31 ≤ workers ∧ (calls : ℤ) ≤ max 0 (Int32.ofNat workers).toInt

/-- The worker that is selected when the cursor has been moved so many times. -/
def turn (workers k : ℕ) : Option ℕ :=
  let workerId := ((Int32.ofNat k).toInt64.toUInt64 % UInt64.ofNat workers).toUInt32.toInt32
  if workerId ≥ Int32.ofNat workers then none else some workerId.toInt.toNat

section Cursor
variable {n k m : ℕ}

theorem toNat_toUInt64_eq (x : Int64) :
    (x.toUInt64.toNat : ℤ) = if 0 ≤ x.toInt then x.toInt else x.toInt + 2 ^ 64 := by
  have hbits : x.toInt = x.toBitVec.toInt := rfl
  have hnat : x.toUInt64.toNat = x.toBitVec.toNat := rfl
  have hlt := x.toBitVec.isLt
  rw [BitVec.toInt_eq_toNat_cond] at hbits
  rw [hnat, hbits]
  split <;> split <;> omega

/-- The cursor as the remainder is taken of it: the sign of its upper half is extended. -/
theorem toNat_cursor (k : ℕ) : (Int32.ofNat k).toInt64.toUInt64.toNat =
    if k % 2 ^ 32 < 2 ^ 31 then k % 2 ^ 32 else k % 2 ^ 32 + (2 ^ 64 - 2 ^ 32) := by
  have hcursor := toNat_toUInt64_eq (Int32.ofNat k).toInt64
  rw [Int32.toInt_toInt64, Int32.toInt_ofNat', show Int32.size = 4294967296 from rfl,
    Int.bmod_def] at hcursor
  split <;> omega

theorem toInt32_toUInt32 (u : UInt64) : u.toUInt32.toInt32 = Int32.ofNat u.toNat := by
  rw [← UInt32.toInt32_ofNat', ← UInt64.toUInt32_ofNat', UInt64.ofNat_toNat]

theorem turn_of_lt {u : ℕ} (h64 : n < 2 ^ 64)
    (hu : (Int32.ofNat k).toInt64.toUInt64.toNat % n = u) (h : u < 2 ^ 31) :
    turn n k = if (u : ℤ) < (Int32.ofNat n).toInt then some u else none := by
  have hid : ((Int32.ofNat k).toInt64.toUInt64 % UInt64.ofNat n).toUInt32.toInt32.toInt = u := by
    rw [toInt32_toUInt32, UInt64.toNat_mod, UInt64.toNat_ofNat', Nat.mod_eq_of_lt h64, hu,
      Int32.toInt_ofNat_of_lt h]
  have hge : Int32.ofNat n ≤ ((Int32.ofNat k).toInt64.toUInt64 % UInt64.ofNat n).toUInt32.toInt32 ↔
      (Int32.ofNat n).toInt ≤ u := by
    rw [Int32.le_iff_toInt_le, hid]
  rw [turn]
  by_cases hlt : (u : ℤ) < (Int32.ofNat n).toInt
  · rw [if_neg (hge.not.2 (Int.not_le.2 hlt)), if_pos hlt, hid, Int.toNat_natCast]
  · rw [if_pos (hge.2 (Int.not_lt.1 hlt)), if_neg hlt]

theorem turn_of_few (hn : 0 < n) (h : n < 2 ^ 31) (k : ℕ) :
    turn n k = some ((Int32.ofNat k).toInt64.toUInt64.toNat % n) := by
  have hlt := Nat.mod_lt (Int32.ofNat k).toInt64.toUInt64.toNat hn
  rw [turn_of_lt (by omega) rfl (hlt.trans h), Int32.toInt_ofNat_of_lt h,
    if_pos (Int.ofNat_lt.2 hlt)]

/-- Of 2^31 workers or more, the number may be lost in a conversion. -/
theorem turn_of_many (h : 2 ^ 31 ≤ n) (h64 : n < 2 ^ 64) (hk : k < 2 ^ 31) :
    turn n k = if (k : ℤ) < (Int32.ofNat n).toInt then some k else none := by
  have hmod : k % 2 ^ 32 = k := Nat.mod_eq_of_lt (by omega)
  have hu : (Int32.ofNat k).toInt64.toUInt64.toNat % n = k := by
    rw [toNat_cursor, hmod, if_pos hk, Nat.mod_eq_of_lt (by omega)]
  exact turn_of_lt h64 hu hk

/-- The distance that the cursor jumps when it turns negative, and when it comes back to zero. -/
theorem in_turn_iff :
    (∀ k < m, (Int32.ofNat k).toInt64.toUInt64.toNat % n = k % n) ↔
      m ≤ 2 ^ 31 ∨ n ∣ 2 ^ 64 - 2 ^ 32 ∧ (m ≤ 2 ^ 32 ∨ n ∣ 2 ^ 32) := by
  constructor
  · intro h
    by_contra hno
    obtain ⟨hm, hno⟩ := not_or.1 hno
    have hneg := h (2 ^ 31) (by omega)
    rw [toNat_cursor, if_neg (by decide)] at hneg
    have hdvd : n ∣ 2 ^ 64 - 2 ^ 32 := by
      have hmod := (Nat.modEq_iff_dvd' (by decide)).1 hneg.symm
      exact hmod
    obtain ⟨hm', hno'⟩ := not_or.1 fun h' => hno ⟨hdvd, h'⟩
    have hzero := h (2 ^ 32) (by omega)
    rw [toNat_cursor, if_pos (by decide)] at hzero
    exact hno' (Nat.dvd_of_mod_eq_zero (hzero.symm.trans (Nat.zero_mod n)))
  · intro h k hk
    have hround : k % 2 ^ 32 % n = k % n := by
      by_cases hlt : k < 2 ^ 32
      · rw [Nat.mod_eq_of_lt hlt]
      · exact Nat.mod_mod_of_dvd k (by omega)
    rw [toNat_cursor]
    split
    · exact hround
    · obtain ⟨c, hc⟩ : n ∣ 2 ^ 64 - 2 ^ 32 := by
        have hle := Nat.mod_le k (2 ^ 32)
        omega
      rw [hc, Nat.add_mul_mod_self_left, hround]

theorem fair_map_range (f : ℕ → Option ℕ) : Fair n ((List.range m).map f) ↔
    (∀ k < m, ∃ w < n, f k = some w) ∧ InTurn.Spread n m f := by
  have hwindow (i : ℕ) (hi : i + n ≤ m) :
      ((((List.range m).map f).drop i).take n).Nodup ↔ Set.InjOn f (Set.Ico i (i + n)) := by
    rw [← List.map_drop, ← List.map_take, List.range_eq_range', List.drop_range',
      List.take_range'_of_length_ge (by omega), zero_add, mul_one,
      List.nodup_map_iff_inj_on List.nodup_range']
    simp only [List.mem_range'_1, Set.InjOn, Set.mem_Ico]
  constructor
  · rintro ⟨hvalid, hdistinct⟩
    rw [List.length_map, List.length_range] at hdistinct
    exact ⟨fun k hk => hvalid _ (List.mem_map_of_mem (List.mem_range.2 hk)),
      fun i hi => (hwindow i hi).1 (hdistinct i hi)⟩
  · rintro ⟨hvalid, hspread⟩
    refine ⟨fun t ht => ?_, fun i hi => ?_⟩
    · obtain ⟨k, hk, rfl⟩ := List.mem_map.1 ht
      exact hvalid k (List.mem_range.1 hk)
    · rw [List.length_map, List.length_range] at hi
      exact (hwindow i hi).2 (hspread i hi)

theorem fair_few_iff (hn : 0 < n) (h : n < 2 ^ 31) (m : ℕ) :
    Fair n ((List.range m).map (turn n)) ↔
      m ≤ 2 ^ 31 ∨ n ∣ 2 ^ 64 - 2 ^ 32 ∧ (m ≤ 2 ^ 32 ∨ n ∣ 2 ^ 32) := by
  have hlt (k : ℕ) := Nat.mod_lt (Int32.ofNat k).toInt64.toUInt64.toNat hn
  have hstart : ∀ k < m, k < n → (Int32.ofNat k).toInt64.toUInt64.toNat % n = k := by
    intro k _ hk
    rw [toNat_cursor, Nat.mod_eq_of_lt (by omega : k < 2 ^ 32), if_pos (by omega),
      Nat.mod_eq_of_lt hk]
  have hspread : InTurn.Spread n m (turn n) ↔
      InTurn.Spread n m fun k => (Int32.ofNat k).toInt64.toUInt64.toNat % n := by
    simp only [InTurn.Spread, Set.InjOn, turn_of_few hn h, Option.some.injEq]
  rw [fair_map_range, hspread, InTurn.spread_iff (fun k _ => hlt k) hstart, in_turn_iff,
    and_iff_right]
  intro k _
  exact ⟨_, hlt k, turn_of_few hn h k⟩

theorem fair_many_iff (h : 2 ^ 31 ≤ n) (h64 : n < 2 ^ 64) (m : ℕ) :
    Fair n ((List.range m).map (turn n)) ↔ (m : ℤ) ≤ max 0 (Int32.ofNat n).toInt := by
  have hcast := (Int32.ofNat n).toInt_lt
  rw [fair_map_range]
  constructor
  · rintro ⟨hvalid, -⟩
    by_contra hm
    -- the first call whose number does not pass the check
    obtain ⟨k, hk⟩ := Int.eq_ofNat_of_zero_le (le_max_left 0 (Int32.ofNat n).toInt)
    have hkc : (Int32.ofNat n).toInt ≤ k := hk ▸ le_max_right _ _
    obtain ⟨w, -, hw⟩ := hvalid k (by omega)
    rw [turn_of_many h h64 (by omega), if_neg (Int.not_lt.2 hkc)] at hw
    cases hw
  · intro hm
    refine ⟨fun k hk => ⟨k, by omega, ?_⟩, fun i hi => ?_⟩
    · rw [turn_of_many h h64 (by omega), if_pos (by omega)]
    · omega

theorem fair_turns_iff (hn : 0 < n) (h64 : n < 2 ^ 64) (m : ℕ) :
    Fair n ((List.range m).map (turn n)) ↔ KeepsTurn n m := by
  rw [KeepsTurn]
  by_cases h : n < 2 ^ 31
  · have hno : ¬ (2 ^ 31 ≤ n ∧ (m : ℤ) ≤ max 0 (Int32.ofNat n).toInt) :=
      fun h' => absurd h (Nat.not_lt.2 h'.1)
    rw [fair_few_iff hn h, and_iff_right h, or_iff_left hno]
  · have hle := Nat.le_of_not_lt h
    rw [fair_many_iff hle h64, and_iff_right hle, or_iff_right fun h' => h h'.1]

end Cursor

section Run
variable {g g' g₀ : ExecutionGateway} {c : ExecutionReport × Int32} {n k m : ℕ} {ok : Bool}
  {ts : List (ExecutionGateway × (ExecutionReport × Int32) × ExecutionGateway)}

theorem isEmpty_eq_false (h : 0 < g.mWorkerQueues.length) : g.mWorkerQueues.isEmpty = false := by
  rw [List.isEmpty_eq_false_iff]
  exact List.ne_nil_of_length_pos h

theorem Routes.moves (h : Routes g c g') (hpos : 0 < g.mWorkerQueues.length) :
    g'.mWorkerQueues.length = g.mWorkerQueues.length ∧ g'.mNextWorker = g.mNextWorker + 1 ∧
      g'.acquires = g.acquires := by
  obtain ⟨hneg, ok, hsend⟩ := h
  rw [sendReport, isEmpty_eq_false hpos, if_neg Bool.false_ne_true, selectWorker,
    if_pos hneg] at hsend
  dsimp only at hsend
  split at hsend
  · obtain ⟨-, rfl⟩ := Prod.mk.inj (Option.some.inj hsend)
    exact ⟨rfl, rfl, rfl⟩
  · obtain ⟨out, -, he⟩ := Option.map_eq_some_iff.1 hsend
    obtain ⟨-, rfl⟩ := Prod.mk.inj he
    exact ⟨List.length_set, rfl, rfl⟩

theorem target_eq_turn (hneg : c.2 < 0) (hpos : 0 < g.mWorkerQueues.length)
    (hnext : g.mNextWorker = Int32.ofNat k) :
    g.target c.2 = turn g.mWorkerQueues.length k := by
  rw [target, isEmpty_eq_false hpos, if_neg Bool.false_ne_true, selectWorker, if_pos hneg, hnext]
  rfl

theorem targets_of_run (hn : 0 < n) (h₀ : g₀.mWorkerQueues.length = n)
    (hnext : g₀.mNextWorker = 0) (h : Runs Routes g₀ ts g) :
    targets ts = (List.range ts.length).map (turn n) ∧ g.mWorkerQueues.length = n ∧
      g.mNextWorker = Int32.ofNat ts.length ∧ g.acquires = g₀.acquires := by
  induction h with
  | nil => exact ⟨rfl, h₀, hnext, rfl⟩
  | @snoc ts g c g' h hr ih =>
    obtain ⟨htargets, hlen, hcursor, hacquires⟩ := ih
    obtain ⟨hlen', hcursor', hacquires'⟩ := hr.moves (hlen ▸ hn)
    have htarget := target_eq_turn hr.1 (hlen ▸ hn) hcursor
    rw [hlen] at htarget
    rw [List.length_append, List.length_singleton]
    refine ⟨?_, hlen'.trans hlen, ?_, hacquires'.trans hacquires⟩
    · rw [targets, List.map_append, ← targets, htargets, List.range_succ, List.map_append,
        List.map_singleton, List.map_singleton, htarget]
    · rw [hcursor', hcursor, Int32.ofNat_add]
      rfl

theorem exists_routes (hn : 0 < n) (h₀ : g₀.mWorkerQueues.length = n) (hnext : g₀.mNextWorker = 0)
    (hpool : ∀ k, (g₀.acquires k).isSome) (m : ℕ) :
    ∃ ts g, Runs Routes g₀ ts g ∧ ts.length = m := by
  induction m with
  | zero => exact ⟨[], g₀, .nil, rfl⟩
  | succ m ih =>
    obtain ⟨ts, g, hrun, hm⟩ := ih
    obtain ⟨-, hlen, -, hacquires⟩ := targets_of_run hn h₀ hnext hrun
    have hsome : (g.sendReport {} (-1)).isSome := by
      rw [sendReport, isEmpty_eq_false (hlen ▸ hn), if_neg Bool.false_ne_true, selectWorker,
        if_pos (by decide)]
      dsimp only
      split
      · rfl
      · rw [Option.isSome_map, hacquires]
        exact hpool _
    obtain ⟨⟨ok, g'⟩, hsend⟩ := Option.isSome_iff_exists.1 hsome
    have hroutes : Routes g ({}, -1) g' := ⟨by decide, ok, hsend⟩
    refine ⟨_, g', hrun.snoc hroutes, ?_⟩
    rw [List.length_append, List.length_singleton, hm]

/-- A run of calls on a new gateway is fair exactly as long as the wrapping of the cursor does not
show: for ever if the number of workers is a power of two, and otherwise up to the first change of
its sign, or the second if they divide its distance. -/
theorem routing_fair_iff (hn : 0 < n) (h64 : n < 2 ^ 64) (h₀ : g₀.mWorkerQueues.length = n)
    (hnext : g₀.mNextWorker = 0) (h : Runs Routes g₀ ts g) :
    Fair n (targets ts) ↔ KeepsTurn n ts.length := by
  rw [(targets_of_run hn h₀ hnext h).1, fair_turns_iff hn h64]

def fresh (n : ℕ) : ExecutionGateway :=
  { mWorkerQueues := List.replicate n {}, acquires := fun _ => some 0 }

theorem routing_fair_seven : ∃ ts g, Runs Routes (fresh 7) ts g ∧ ts.length = 2 ^ 31 ∧
    Fair 7 (targets ts) := by
  have hworkers : (fresh 7).mWorkerQueues.length = 7 := rfl
  obtain ⟨ts, g, hrun, hlen⟩ :=
    exists_routes (by decide) hworkers rfl (fun _ => rfl) (2 ^ 31)
  refine ⟨ts, g, hrun, hlen, (routing_fair_iff (by decide) (by decide) rfl rfl hrun).2 ?_⟩
  exact .inl ⟨by decide, .inl hlen.le⟩

/-- With seven workers, the call after the first 2^31 repeats one of the six workers before it. -/
theorem routing_unfair_seven : ¬ ∀ (n : ℕ) (ts) (g : ExecutionGateway), 0 < n → n < 2 ^ 64 →
    Runs Routes (fresh n) ts g → Fair n (targets ts) := by
  intro h
  have hworkers : (fresh 7).mWorkerQueues.length = 7 := rfl
  obtain ⟨ts, g, hrun, hlen⟩ :=
    exists_routes (by decide) hworkers rfl (fun _ => rfl) (2 ^ 31 + 1)
  have hfair := h 7 ts g (by decide) (by decide) hrun
  rw [(targets_of_run (by decide) rfl rfl hrun).1, hlen] at hfair
  have hkeeps := (fair_few_iff (by decide) (by decide) _).1 hfair
  omega

end Run

end ExecutionGateway

end Velox
