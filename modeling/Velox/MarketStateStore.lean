import Velox.Lib.Cut
import Velox.Lib.Decimal
import Velox.Lib.Loop

namespace Velox
set_option autoImplicit true

abbrev SymbolPriceMap := List UInt8 → Option Int64

/-- The next line of a stream and what follows it; there is none at the end of the stream. -/
def getline (input : List UInt8) : Option (List UInt8 × List UInt8) :=
  if input = [] then none else some ((cut 10 input).getD (input, []))

/-- Malformed lines are ignored. -/
def readLine (line : List UInt8) (prices : SymbolPriceMap) : SymbolPriceMap :=
  if line = [] then prices else
  match cut 61 line with
  | none => prices
  | some (symbol, rawValue) =>
    if symbol = [] then prices else
    match Decimal.toSigned 64 rawValue with
    | none => prices
    | some parsed => Function.update prices symbol (some (Int64.ofInt parsed))

def readBody (s : SymbolPriceMap × List UInt8) :
    Option (SymbolPriceMap × List UInt8 ⊕ SymbolPriceMap × List UInt8) :=
  match getline s.2 with
  | none => some (.inl s)
  | some (line, rest) => some (.inr (readLine line s.1, rest))

def addDefault (defaults : SymbolPriceMap) (prices : SymbolPriceMap) (symbol : List UInt8) :
    SymbolPriceMap :=
  if prices symbol = none then
    match defaults symbol with
    | none => prices
    | some price => Function.update prices symbol (some price)
  else prices

/-- `none` is a file that cannot be opened. Every line takes a byte or more. -/
def readMarketState (file : Option (List UInt8)) (symbols : List (List UInt8))
    (defaults : SymbolPriceMap) : Option SymbolPriceMap :=
  match file with
  | none => some defaults
  | some bytes => (Loop.run readBody (bytes.length + 1) (defaults, bytes)).map fun s =>
    symbols.foldl (addDefault defaults) s.1

def writeLine (e : List UInt8 × Int64) : List UInt8 :=
  e.1 ++ 61 :: (Decimal.decimalInt e.2.toInt ++ [10])

/-- The bytes written for a map that is iterated in an order. -/
def writeMarketState (entries : List (List UInt8 × Int64)) : List UInt8 :=
  entries.flatMap writeLine

/-- The entries of a map, each once, in some order. -/
structure IterationOrder (prices : SymbolPriceMap) (entries : List (List UInt8 × Int64)) :
    Prop where
  nodup : (entries.map Prod.fst).Nodup
  mem_iff : ∀ symbol price, (symbol, price) ∈ entries ↔ prices symbol = some price

def enter (prices : SymbolPriceMap) (e : List UInt8 × Int64) : SymbolPriceMap :=
  Function.update prices e.1 (some e.2)

/-- The symbols that a line can hold. -/
structure Storable (symbol : List UInt8) : Prop where
  ne_nil : symbol ≠ []
  no_equals : 61 ∉ symbol
  no_newline : 10 ∉ symbol

section Store
variable {prices defaults : SymbolPriceMap} {entries : List (List UInt8 × Int64)}
  {e : List UInt8 × Int64} {symbol rest : List UInt8} {symbols : List (List UInt8)} {n : ℕ}

theorem toSigned_price (price : Int64) :
    Decimal.toSigned 64 (Decimal.decimalInt price.toInt) = some price.toInt :=
  (Decimal.Spells.decimalInt _).toSigned price.le_toInt price.toInt_lt

theorem readLine_written (h : Storable e.1) (prices : SymbolPriceMap) :
    readLine (e.1 ++ 61 :: Decimal.decimalInt e.2.toInt) prices =
      enter prices e := by
  have hne : e.1 ++ 61 :: Decimal.decimalInt e.2.toInt ≠ [] :=
    List.append_ne_nil_of_right_ne_nil _ (List.cons_ne_nil _ _)
  rw [readLine, if_neg hne, Cut.cut_append h.no_equals]
  dsimp only
  rw [if_neg h.ne_nil, toSigned_price]
  dsimp only
  rw [Int64.ofInt_toInt, enter]

theorem readBody_written (h : Storable e.1) (prices : SymbolPriceMap) (rest : List UInt8) :
    readBody (prices, writeLine e ++ rest) =
      some (.inr (enter prices e, rest)) := by
  have hline : writeLine e ++ rest = (e.1 ++ 61 :: Decimal.decimalInt e.2.toInt) ++ 10 :: rest := by
    rw [writeLine, List.append_assoc, List.append_assoc, List.cons_append, List.append_assoc]
    rfl
  have hnewline : 10 ∉ e.1 ++ 61 :: Decimal.decimalInt e.2.toInt := by
    rw [List.mem_append, List.mem_cons, not_or, not_or]
    exact ⟨h.no_newline, by decide, Decimal.not_mem_decimalInt _ (by decide) (by decide)⟩
  have hget : getline (writeLine e ++ rest) =
      some (e.1 ++ 61 :: Decimal.decimalInt e.2.toInt, rest) := by
    rw [hline, getline, if_neg (List.append_ne_nil_of_right_ne_nil _ (List.cons_ne_nil _ _)),
      Cut.cut_append hnewline]
    rfl
  rw [readBody]
  dsimp only
  rw [hget]
  dsimp only
  rw [readLine_written h]

theorem run_written (h : ∀ e ∈ entries, Storable e.1) (prices : SymbolPriceMap)
    (hn : entries.length < n) : Loop.run readBody n (prices, writeMarketState entries) =
      some (entries.foldl enter prices, []) := by
  induction entries generalizing prices n with
  | nil =>
    cases n with
    | zero => cases hn
    | succ n => exact Loop.run_leave rfl n
  | cons e entries ih =>
    cases n with
    | zero => cases hn
    | succ n =>
      have hturn := readBody_written (h e (.head _)) prices (writeMarketState entries)
      rw [writeMarketState, List.flatMap_cons, ← writeMarketState, Loop.run_again hturn,
        ih (fun e he => h e (.tail _ he)) _ (Nat.lt_of_succ_lt_succ hn), List.foldl_cons]

theorem foldl_enter (h : ∀ e ∈ entries, prices e.1 = some e.2) (start : SymbolPriceMap)
    (symbol : List UInt8) :
    entries.foldl enter start symbol =
      if symbol ∈ entries.map Prod.fst then prices symbol else start symbol := by
  induction entries using List.reverseRecOn with
  | nil => rfl
  | append_singleton entries e ih =>
    have hinit := ih fun e he => h e (List.mem_append_left _ he)
    rw [List.foldl_append, List.map_append, List.foldl_cons, List.foldl_nil, List.map_singleton]
    by_cases hs : symbol = e.1
    · subst hs
      have hlast := h e (List.mem_append_right _ (.head _))
      rw [enter, Function.update_self, if_pos (List.mem_append_right _ (.head _)), hlast]
    · rw [enter, Function.update_of_ne hs, hinit]
      simp only [List.mem_append, List.mem_singleton, hs, or_false]

theorem foldl_addDefault (h : ∀ symbol, prices symbol = none → defaults symbol = none)
    (symbols : List (List UInt8)) : symbols.foldl (addDefault defaults) prices = prices := by
  induction symbols with
  | nil => rfl
  | cons symbol symbols ih =>
    have hstep : addDefault defaults prices symbol = prices := by
      rw [addDefault]
      split
      · rename_i hnone
        rw [h symbol hnone]
      · rfl
    rw [List.foldl_cons, hstep, ih]

theorem length_writeMarketState (entries : List (List UInt8 × Int64)) :
    entries.length ≤ (writeMarketState entries).length := by
  induction entries with
  | nil => exact Nat.le_refl 0
  | cons e entries ih =>
    rw [writeMarketState, List.flatMap_cons, List.length_append, List.length_cons, writeLine,
      List.length_append, List.length_cons, ← writeMarketState]
    omega

/-- What was written is read back, in whatever order it was written, and the defaults fill in the
symbols that were not. -/
theorem readMarketState_write (h : IterationOrder prices entries)
    (hs : ∀ e ∈ entries, Storable e.1) (symbols : List (List UInt8)) (defaults : SymbolPriceMap) :
    readMarketState (some (writeMarketState entries)) symbols defaults =
      some fun symbol => (prices symbol).or (defaults symbol) := by
  have hprices : ∀ e ∈ entries, prices e.1 = some e.2 := fun e he => (h.mem_iff _ _).1 he
  have hread : entries.foldl enter defaults =
      fun symbol => (prices symbol).or (defaults symbol) := by
    funext symbol
    rw [foldl_enter hprices]
    split
    · rename_i hmem
      obtain ⟨e, he, rfl⟩ := List.mem_map.1 hmem
      rw [hprices e he, Option.some_or]
    · rename_i hmem
      cases hsym : prices symbol with
      | none => rfl
      | some price => exact absurd (List.mem_map_of_mem ((h.mem_iff _ _).2 hsym)) hmem
  have hnone : ∀ symbol, (prices symbol).or (defaults symbol) = none → defaults symbol = none :=
    fun symbol hsym => (Option.or_eq_none_iff.1 hsym).2
  rw [readMarketState,
    run_written hs defaults (Nat.lt_succ_of_le (length_writeMarketState entries)), hread,
    Option.map_some, foldl_addDefault hnone]

/-- Two prices, one of them negative. -/
theorem readMarketState_write_two :
    IterationOrder (enter (enter (fun _ => none) ([65], 100)) ([66], -7)) [([66], -7), ([65], 100)] ∧
      ∀ symbols defaults,
        readMarketState (some (writeMarketState [([66], -7), ([65], 100)])) symbols defaults =
          some fun symbol => (enter (enter (fun _ => none) ([65], 100)) ([66], -7) symbol).or
            (defaults symbol) := by
  have horder : IterationOrder (enter (enter (fun _ => none) ([65], 100)) ([66], -7))
      [([66], -7), ([65], 100)] := by
    refine ⟨by decide, fun symbol price => ?_⟩
    by_cases hb : symbol = [66]
    · subst hb
      simp [enter, eq_comm]
    · by_cases ha : symbol = [65]
      · subst ha
        simp [enter, eq_comm]
      · simp [enter, ha, hb]
  refine ⟨horder, readMarketState_write horder ?_⟩
  intro e he
  rcases List.mem_pair.1 he with rfl | rfl
  · exact ⟨by decide, by decide, by decide⟩
  · exact ⟨by decide, by decide, by decide⟩

end Store

end Velox
