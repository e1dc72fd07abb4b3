import Mathlib

set_option autoImplicit true

namespace Decimal

def digit (d : ℕ) : UInt8 := UInt8.ofNat (48 + d)

/-- How `std::to_string` and the output operator print an unsigned number. -/
def decimal (n : ℕ) : List UInt8 :=
  if n = 0 then [48] else ((Nat.digits 10 n).map digit).reverse

/-- How they print a signed number. -/
def decimalInt (z : ℤ) : List UInt8 :=
  if z < 0 then 45 :: decimal z.natAbs else decimal z.natAbs

def IsDigit (b : UInt8) : Prop := 48 ≤ b ∧ b ≤ 57

instance : DecidablePred IsDigit := fun _ => inferInstanceAs (Decidable (_ ∧ _))

/-- The white space of the C locale. -/
def IsSpace (b : UInt8) : Prop := b = 32 ∨ 9 ≤ b ∧ b ≤ 13

instance : DecidablePred IsSpace := fun _ => inferInstanceAs (Decidable (_ ∨ _))

/-- The number that digits stand for. -/
def value (digits : List UInt8) : ℕ := digits.foldl (fun v d => 10 * v + (d.toNat - 48)) 0

def magnitude (text : List UInt8) : Option ℕ :=
  let digits := text.takeWhile IsDigit
  if digits = [] then none else some (value digits)

/-- What the C library reads of a number: white space, a sign that may be left out, and digits;
whatever follows the digits is ignored. -/
def scan (text : List UInt8) : Option (Bool × ℕ) :=
  match text.dropWhile IsSpace with
  | [] => none
  | b :: rest =>
    if b = 45 then (magnitude rest).map (true, ·)
    else if b = 43 then (magnitude rest).map (false, ·)
    else (magnitude (b :: rest)).map (false, ·)

/-- The number read, with its sign. -/
def signed (n : Bool × ℕ) : ℤ := if n.1 then -n.2 else n.2

/-- A conversion to a signed type; `none` is an exception. -/
def toSigned (bits : ℕ) (text : List UInt8) : Option ℤ :=
  (scan text).bind fun n =>
    if -2 ^ (bits - 1) ≤ signed n ∧ signed n < 2 ^ (bits - 1) then some (signed n) else none

/-- A conversion to an unsigned type: a minus sign negates modulo its size. -/
def toUnsigned (bits : ℕ) (text : List UInt8) : Option ℕ :=
  (scan text).bind fun n =>
    if n.2 < 2 ^ bits then some (if n.1 then (2 ^ bits - n.2) % 2 ^ bits else n.2) else none

/-- A number written as digits, after a minus sign or alone. -/
inductive Spells : List UInt8 → ℤ → Prop
  | plain {digits : List UInt8} (h : ∀ b ∈ digits, IsDigit b) (hne : digits ≠ []) :
    Spells digits (value digits)
  | minus {digits : List UInt8} (h : ∀ b ∈ digits, IsDigit b) (hne : digits ≠ []) :
    Spells (45 :: digits) (-value digits)

variable {n d bits : ℕ} {z : ℤ} {b : UInt8} {text digits rest : List UInt8}

section Value

theorem toNat_digit (h : d < 10) : (digit d).toNat = 48 + d := by
  rw [digit, UInt8.toNat_ofNat', Nat.mod_eq_of_lt (by omega)]

theorem isDigit_digit (h : d < 10) : IsDigit (digit d) := by
  rw [IsDigit, UInt8.le_iff_toNat_le, UInt8.le_iff_toNat_le, toNat_digit h]
  exact ⟨Nat.le_add_right 48 d, Nat.add_le_add_left (Nat.le_of_lt_succ h) 48⟩

theorem value_append (b : UInt8) :
    value (digits ++ [b]) = 10 * value digits + (b.toNat - 48) :=
  List.foldl_append

theorem value_digits {ds : List ℕ} (h : ∀ d ∈ ds, d < 10) :
    value (ds.map digit).reverse = Nat.ofDigits 10 ds := by
  induction ds with
  | nil => rfl
  | cons d ds ih =>
    rw [List.map_cons, List.reverse_cons, value_append, ih fun d hd => h d (.tail _ hd),
      toNat_digit (h d (.head _)), Nat.ofDigits_cons]
    omega

theorem value_decimal (n : ℕ) : value (decimal n) = n := by
  rw [decimal]
  split
  · rename_i hn
    rw [hn]
    rfl
  · rw [value_digits fun d hd => Nat.digits_lt_base (by decide) hd, Nat.ofDigits_digits]

theorem isDigit_of_mem_decimal (h : b ∈ decimal n) : IsDigit b := by
  rw [decimal] at h
  split at h
  · rw [List.mem_singleton.1 h]
    decide
  · obtain ⟨d, hd, rfl⟩ := List.mem_map.1 (List.mem_reverse.1 h)
    exact isDigit_digit (Nat.digits_lt_base (by decide) hd)

theorem not_mem_decimal (n : ℕ) (hb : ¬ IsDigit b) : b ∉ decimal n :=
  fun h => hb (isDigit_of_mem_decimal h)

theorem decimal_ne_nil (n : ℕ) : decimal n ≠ [] := by
  rw [decimal]
  split
  · exact List.cons_ne_nil _ _
  · rename_i hn
    rwa [ne_eq, List.reverse_eq_nil_iff, List.map_eq_nil_iff, Nat.digits_eq_nil_iff_eq_zero]

theorem decimal_injective : Function.Injective decimal :=
  Function.LeftInverse.injective value_decimal

end Value

section Scan

theorem magnitude_of_digits (h : ∀ b ∈ digits, IsDigit b) (hne : digits ≠ [])  :
    magnitude digits = some (value digits) := by
  have htake : digits.takeWhile (fun b => decide (IsDigit b)) = digits :=
    List.takeWhile_eq_self_iff.2 fun b hb => decide_eq_true (h b hb)
  rw [magnitude, htake, if_neg hne]

theorem not_isSpace (h : IsDigit b) : ¬ IsSpace b := by
  rw [IsDigit, UInt8.le_iff_toNat_le] at h
  rintro (rfl | ⟨-, h'⟩)
  · exact absurd h.1 (by decide)
  · rw [UInt8.le_iff_toNat_le] at h'
    exact absurd (h.1.trans h') (by decide)

theorem scan_digits (h : ∀ b ∈ digits, IsDigit b) (hne : digits ≠ []) :
    scan digits = some (false, value digits) := by
  have hmag := magnitude_of_digits h hne
  cases digits with
  | nil => exact absurd rfl hne
  | cons b rest =>
    have hb := h b (.head _)
    have hminus : b ≠ 45 := by
      rintro rfl
      exact absurd hb (by decide)
    have hplus : b ≠ 43 := by
      rintro rfl
      exact absurd hb (by decide)
    have hdrop : (b :: rest).dropWhile (fun b => decide (IsSpace b)) = b :: rest :=
      List.dropWhile_cons_of_neg (by rw [decide_eq_true_eq]; exact not_isSpace hb)
    rw [scan, hdrop]
    dsimp only
    rw [if_neg hminus, if_neg hplus, hmag]
    rfl

theorem scan_minus (h : ∀ b ∈ digits, IsDigit b) (hne : digits ≠ []) :
    scan (45 :: digits) = some (true, value digits) := by
  have hdrop : ((45 : UInt8) :: digits).dropWhile (fun b => decide (IsSpace b)) = 45 :: digits :=
    List.dropWhile_cons_of_neg (by decide)
  rw [scan, hdrop]
  dsimp only
  rw [if_pos rfl, magnitude_of_digits h hne]
  rfl

namespace Spells

theorem decimal (n : ℕ) : Spells (decimal n) n := by
  have h := plain (fun b hb => isDigit_of_mem_decimal (n := n) hb) (decimal_ne_nil n)
  rwa [value_decimal] at h

theorem decimalInt (z : ℤ) : Spells (decimalInt z) z := by
  rw [Decimal.decimalInt]
  split
  · rename_i hz
    have h := minus (fun b hb => isDigit_of_mem_decimal (n := z.natAbs) hb) (decimal_ne_nil _)
    rwa [value_decimal, Int.ofNat_natAbs_of_nonpos hz.le, neg_neg] at h
  · rename_i hz
    have h := decimal z.natAbs
    rwa [Int.natAbs_of_nonneg (Int.not_lt.1 hz)] at h

theorem mem (h : Spells text z) (hb : b ∈ text) : b = 45 ∨ IsDigit b := by
  cases h with
  | plain h hne => exact .inr (h b hb)
  | minus h hne => exact (List.mem_cons.1 hb).imp_right (h b)

theorem scan (h : Spells text z) : ∃ n, Decimal.scan text = some n ∧ signed n = z := by
  cases h with
  | plain h hne => exact ⟨_, scan_digits h hne, if_neg Bool.false_ne_true⟩
  | minus h hne => exact ⟨_, scan_minus h hne, if_pos rfl⟩

theorem toSigned (h : Spells text z) (hmin : -2 ^ (bits - 1) ≤ z) (hmax : z < 2 ^ (bits - 1)) :
    toSigned bits text = some z := by
  obtain ⟨n, hn, rfl⟩ := h.scan
  rw [Decimal.toSigned, hn, Option.bind_some, if_pos ⟨hmin, hmax⟩]

theorem toUnsigned (h : Spells text z) (hmin : 0 ≤ z) (hmax : z < 2 ^ bits) :
    toUnsigned bits text = some z.toNat := by
  obtain ⟨⟨neg, v⟩, hn, rfl⟩ := h.scan
  have hpow : ((2 ^ bits : ℕ) : ℤ) = 2 ^ bits := by push_cast; rfl
  have hpos : 0 < 2 ^ bits := Nat.two_pow_pos bits
  rw [← hpow] at hmax
  rw [Decimal.toUnsigned, hn, Option.bind_some]
  cases neg with
  | false =>
    rw [signed, if_neg Bool.false_ne_true] at hmax ⊢
    dsimp only at hmax ⊢
    rw [if_pos (by omega), if_neg Bool.false_ne_true, Int.toNat_natCast]
  | true =>
    rw [signed, if_pos rfl] at hmin ⊢
    dsimp only at hmin ⊢
    have hv : v = 0 := by omega
    rw [hv, if_pos hpos, if_pos rfl, Nat.sub_zero, Nat.mod_self]
    rfl

end Spells

theorem not_mem_decimalInt (z : ℤ) (hb : b ≠ 45) (hd : ¬ IsDigit b) : b ∉ decimalInt z := by
  intro h
  rcases (Spells.decimalInt z).mem h with h | h
  · exact hb h
  · exact hd h

theorem decimalInt_injective : Function.Injective decimalInt := by
  intro x y h
  obtain ⟨n, hn, rfl⟩ := (Spells.decimalInt x).scan
  obtain ⟨m, hm, rfl⟩ := (Spells.decimalInt y).scan
  rw [h, hm] at hn
  rw [Option.some.inj hn]

end Scan

end Decimal
