import Velox.FixEncoder

namespace Velox
set_option autoImplicit true

namespace FixEncoder
open Decimal

/-- A field as it stands in a message: the text of its tag and its value. -/
abbrev RawField := List UInt8 × List UInt8

def RawField.bytes (f : RawField) : List UInt8 := fixField f.1 f.2

/-- What the loop makes of a complete field; `none` is an exception. -/
def storeField (report : ExecutionReport) (f : RawField) : Option ExecutionReport :=
  (toSigned 32 f.1).bind fun tag => storeValue tag f.2 report

/-- The text of the tag and the value end where they are searched to end. -/
structure RawField.Complete (f : RawField) : Prop where
  tag : 61 ∉ f.1
  value : 1 ∉ f.2

section Loop
variable {report report' : ExecutionReport} {f : RawField} {fields : List RawField}
  {rest : List UInt8} {n : ℕ}

theorem fixField_append (tag value rest : List UInt8) :
    fixField tag value ++ rest = tag ++ 61 :: (value ++ 1 :: rest) := by
  rw [fixField, List.append_assoc, List.cons_append, List.append_assoc]
  rfl

theorem decodeBody_field (hf : f.Complete) (h : storeField report f = some report')
    (rest : List UInt8) : decodeBody { report, rest := f.bytes ++ rest } =
      some (.inr { report := report', rest }) := by
  obtain ⟨tag, htag, hstore⟩ := Option.bind_eq_some_iff.1 h
  have hne : f.bytes ++ rest ≠ [] := by
    rw [RawField.bytes, fixField_append]
    exact List.append_ne_nil_of_right_ne_nil _ (List.cons_ne_nil _ _)
  have hcut : cut 61 (f.bytes ++ rest) = some (f.1, f.2 ++ 1 :: rest) := by
    rw [RawField.bytes, fixField_append]
    exact Cut.cut_append hf.tag
  rw [decodeBody]
  dsimp only
  rw [if_neg hne, hcut]
  dsimp only
  rw [htag]
  dsimp only
  rw [Cut.cut_append hf.value]
  dsimp only
  rw [hstore]

theorem run_fields (hf : ∀ f ∈ fields, f.Complete)
    (h : fields.foldlM storeField report = some report') (hn : fields.length < n) :
    Loop.run decodeBody n { report, rest := fields.flatMap RawField.bytes } =
      some { report := report', rest := [] } := by
  induction fields generalizing report n with
  | nil =>
    cases n with
    | zero => cases hn
    | succ n =>
      obtain rfl := Option.some.inj h
      exact Loop.run_leave rfl n
  | cons f fields ih =>
    cases n with
    | zero => cases hn
    | succ n =>
      rw [List.foldlM_cons] at h
      obtain ⟨between, hfirst, hrest⟩ := Option.bind_eq_some_iff.1 h
      have hturn := decodeBody_field (hf f (.head _)) hfirst (fields.flatMap RawField.bytes)
      rw [List.flatMap_cons, Loop.run_again hturn]
      exact ih (fun f hf' => hf f (.tail _ hf')) hrest (Nat.lt_of_succ_lt_succ hn)

theorem length_le_bytes (fields : List RawField) :
    fields.length ≤ (fields.flatMap RawField.bytes).length := by
  induction fields with
  | nil => exact Nat.le_refl 0
  | cons f fields ih =>
    rw [List.flatMap_cons, List.length_append, List.length_cons, RawField.bytes, fixField,
      List.length_append, List.length_cons]
    omega

section Store
variable {tag : ℤ} {value : List UInt8} {v : ℕ} {z : ℤ}

theorem storeValue_orderId (h : toUnsigned 64 value = some v) :
    storeValue tagOrderId value report = some { report with orderId := UInt64.ofNat v } := by
  rw [storeValue, if_pos rfl, h]
  rfl

theorem storeValue_clOrdId (h : toUnsigned 64 value = some v) :
    storeValue tagClOrdId value report = some { report with clientOrderId := UInt64.ofNat v } := by
  rw [storeValue, if_neg (by decide), if_pos rfl, h]
  rfl

theorem storeValue_execQty (h : toUnsigned 64 value = some v) :
    storeValue tagExecQty value report = some { report with executedQuantity := UInt32.ofNat v } := by
  rw [storeValue, if_neg (by decide), if_neg (by decide), if_pos rfl, h]
  rfl

theorem storeValue_lastPx (h : toSigned 64 value = some z) :
    storeValue tagLastPx value report = some { report with executedPrice := Int64.ofInt z } := by
  rw [storeValue, if_neg (by decide), if_neg (by decide), if_neg (by decide), if_pos rfl, h]
  rfl

theorem storeValue_other (h₁ : tag ≠ tagOrderId) (h₂ : tag ≠ tagClOrdId)
    (h₃ : tag ≠ tagExecQty) (h₄ : tag ≠ tagLastPx) :
    storeValue tag value report = some report := by
  rw [storeValue, if_neg h₁, if_neg h₂, if_neg h₃, if_neg h₄]

end Store

theorem decode_fields (hf : ∀ f ∈ fields, f.Complete)
    (h : fields.foldlM storeField report = some report') :
    decodeExecutionReport (fields.flatMap RawField.bytes) report =
      some (.returned true report') := by
  rw [decodeExecutionReport, run_fields hf h (Nat.lt_succ_of_le (length_le_bytes fields))]
  rfl

theorem value_of_returned {message : List UInt8} {value : Bool}
    (h : decodeExecutionReport message report = some (.returned value report')) :
    value = true := by
  obtain ⟨s, -, hs⟩ := Option.map_eq_some_iff.1 h
  split at hs
  · cases hs
  · exact (Decoded.returned.inj hs).1.symm

end Loop

/-- A field of a well-formed message, printed canonically. The tag of the last kind is none of
those that are recognised. -/
inductive ReportField
  | orderId (n : UInt64)
  | clientOrderId (n : UInt64)
  | executedQuantity (n : UInt32)
  | executedPrice (x : Int64)
  | other (tag : ℕ) (value : List UInt8) (fits : tag < 2 ^ 31) (ends : 1 ∉ value)
    (unknown : tag ≠ 37 ∧ tag ≠ 11 ∧ tag ≠ 32 ∧ tag ≠ 31)

namespace ReportField

def tag : ReportField → ℕ
  | orderId _ => 37
  | clientOrderId _ => 11
  | executedQuantity _ => 32
  | executedPrice _ => 31
  | other tag _ _ _ _ => tag

def value : ReportField → List UInt8
  | orderId n => decimal n.toNat
  | clientOrderId n => decimal n.toNat
  | executedQuantity n => decimal n.toNat
  | executedPrice x => decimalInt x.toInt
  | other _ value _ _ _ => value

def raw (f : ReportField) : RawField := (decimal f.tag, f.value)

def apply (report : ExecutionReport) : ReportField → ExecutionReport
  | orderId n => { report with orderId := n }
  | clientOrderId n => { report with clientOrderId := n }
  | executedQuantity n => { report with executedQuantity := n }
  | executedPrice x => { report with executedPrice := x }
  | other _ _ _ _ _ => report

def orderId? : ReportField → Option UInt64
  | orderId n => some n
  | _ => none

def clientOrderId? : ReportField → Option UInt64
  | clientOrderId n => some n
  | _ => none

def executedQuantity? : ReportField → Option UInt32
  | executedQuantity n => some n
  | _ => none

def executedPrice? : ReportField → Option Int64
  | executedPrice x => some x
  | _ => none

/-- The value of the last field of a kind, and the default when there is none. -/
def last (select : ReportField → Option α) (fields : List ReportField) (default : α) : α :=
  (fields.filterMap select).getLast?.getD default

variable {f : ReportField} {fields : List ReportField} {n bits : ℕ} {report : ExecutionReport}

theorem complete (f : ReportField) : f.raw.Complete := by
  refine ⟨not_mem_decimal f.tag (by decide), ?_⟩
  cases f with
  | orderId n => exact not_mem_decimal n.toNat (by decide)
  | clientOrderId n => exact not_mem_decimal n.toNat (by decide)
  | executedQuantity n => exact not_mem_decimal n.toNat (by decide)
  | executedPrice x => exact not_mem_decimalInt x.toInt (by decide) (by decide)
  | other tag value fits ends unknown => exact ends

theorem tag_lt (f : ReportField) : f.tag < 2 ^ 31 := by
  cases f with
  | orderId n => exact (by decide : 37 < 2 ^ 31)
  | clientOrderId n => exact (by decide : 11 < 2 ^ 31)
  | executedQuantity n => exact (by decide : 32 < 2 ^ 31)
  | executedPrice x => exact (by decide : 31 < 2 ^ 31)
  | other tag value fits ends unknown => exact fits

theorem toUnsigned_decimal (h : n < 2 ^ bits) : toUnsigned bits (decimal n) = some n :=
  (Spells.decimal n).toUnsigned (Int.natCast_nonneg n) (by exact_mod_cast h)

theorem storeField_raw (report : ExecutionReport) (f : ReportField) :
    storeField report f.raw = some (apply report f) := by
  have hlt : (f.tag : ℤ) < 2 ^ 31 := by exact_mod_cast f.tag_lt
  have htag : toSigned 32 (decimal f.tag) = some (f.tag : ℤ) :=
    (Spells.decimal f.tag).toSigned (by omega) hlt
  rw [storeField, raw, htag, Option.bind_some]
  cases f with
  | orderId n =>
    exact (storeValue_orderId (toUnsigned_decimal n.toNat_lt)).trans (by rw [UInt64.ofNat_toNat]; rfl)
  | clientOrderId n =>
    exact (storeValue_clOrdId (toUnsigned_decimal n.toNat_lt)).trans (by rw [UInt64.ofNat_toNat]; rfl)
  | executedQuantity n =>
    have hn : n.toNat < 2 ^ 64 := n.toNat_lt.trans (by decide)
    exact (storeValue_execQty (toUnsigned_decimal hn)).trans (by rw [UInt32.ofNat_toNat]; rfl)
  | executedPrice x =>
    have hx : toSigned 64 (decimalInt x.toInt) = some x.toInt :=
      (Spells.decimalInt x.toInt).toSigned x.le_toInt x.toInt_lt
    exact (storeValue_lastPx hx).trans (by rw [Int64.ofInt_toInt]; rfl)
  | other tag value fits ends unknown =>
    obtain ⟨h₁, h₂, h₃, h₄⟩ := unknown
    exact storeValue_other (Int.ofNat_inj.not.2 h₁) (Int.ofNat_inj.not.2 h₂)
      (Int.ofNat_inj.not.2 h₃) (Int.ofNat_inj.not.2 h₄)

theorem last_snoc (select : ReportField → Option α) (f : ReportField) (default : α) :
    last select (fields ++ [f]) default = (select f).getD (last select fields default) := by
  rw [last, List.filterMap_append]
  cases h : select f with
  | none =>
    rw [List.filterMap_cons_none h, List.filterMap_nil, List.append_nil]
    rfl
  | some x =>
    rw [List.filterMap_cons_some h, List.filterMap_nil, List.getLast?_concat]
    rfl

theorem foldl_apply (fields : List ReportField) (report : ExecutionReport) :
    fields.foldl apply report = { report with
      orderId := last orderId? fields report.orderId
      clientOrderId := last clientOrderId? fields report.clientOrderId
      executedQuantity := last executedQuantity? fields report.executedQuantity
      executedPrice := last executedPrice? fields report.executedPrice } := by
  induction fields using List.reverseRecOn with
  | nil => rfl
  | append_singleton fields f ih =>
    rw [List.foldl_append, List.foldl_cons, List.foldl_nil, ih]
    simp only [last_snoc]
    cases f <;> rfl

theorem foldlM_raw (fields : List ReportField) (report : ExecutionReport) :
    (fields.map raw).foldlM storeField report = some (fields.foldl apply report) := by
  induction fields generalizing report with
  | nil => rfl
  | cons f fields ih =>
    rw [List.map_cons, List.foldlM_cons, storeField_raw, List.foldl_cons]
    exact ih _

end ReportField

/-- Every well-formed message is decoded exactly: each member has the value of the last field with
its tag, wherever it stands, and everything else is as it was. -/
theorem decode_report (fields : List ReportField) (report : ExecutionReport) :
    decodeExecutionReport (fields.flatMap fun f => f.raw.bytes) report =
      some (.returned true { report with
        orderId := ReportField.last ReportField.orderId? fields report.orderId
        clientOrderId := ReportField.last ReportField.clientOrderId? fields report.clientOrderId
        executedQuantity := ReportField.last ReportField.executedQuantity? fields report.executedQuantity
        executedPrice := ReportField.last ReportField.executedPrice? fields report.executedPrice }) := by
  have hcomplete : ∀ f ∈ fields.map ReportField.raw, f.Complete := by
    intro f hf
    obtain ⟨g, -, rfl⟩ := List.mem_map.1 hf
    exact g.complete
  have h := decode_fields hcomplete (ReportField.foldlM_raw fields report)
  rwa [ReportField.foldl_apply, List.flatMap_map] at h

/-- A number in a range, written out. -/
def Fits (value : List UInt8) (least bound : ℤ) : Prop :=
  ∃ z, Spells value z ∧ least ≤ z ∧ z < bound

/-- The values of the recognised tags fit the members that they are stored in. -/
structure ValueFits (tag : ℤ) (value : List UInt8) : Prop where
  orderId : tag = tagOrderId → Fits value 0 (2 ^ 64)
  clientOrderId : tag = tagClOrdId → Fits value 0 (2 ^ 64)
  executedQuantity : tag = tagExecQty → Fits value 0 (2 ^ 32)
  executedPrice : tag = tagLastPx → Fits value (-2 ^ 63) (2 ^ 63)

structure RawField.Valid (f : RawField) : Prop where
  tag : ∃ tag, Spells f.1 tag ∧ -2 ^ 31 ≤ tag ∧ tag < 2 ^ 31 ∧ ValueFits tag f.2
  value : 1 ∉ f.2

/-- A concatenation of complete fields whose tags are numbers and whose recognised values fit. -/
def WellFormed (message : List UInt8) : Prop :=
  ∃ fields : List RawField, message = fields.flatMap RawField.bytes ∧ ∀ f ∈ fields, f.Valid

/-- The call returns; `true` means that the message is well formed, and `false` that the report is
as it was. -/
def FailsCleanly (message : List UInt8) (report : ExecutionReport) : Prop :=
  ∃ value report', decodeExecutionReport message report = some (.returned value report') ∧
    (value = true → WellFormed message) ∧ (value = false → report' = report)

section Errors
variable {message value : List UInt8} {report : ExecutionReport} {f : RawField}
  {fields : List RawField} {tag : ℤ} {least bound : ℤ}

theorem ValueFits.stores (h : ValueFits tag value) (report : ExecutionReport) :
    ∃ report', storeValue tag value report = some report' := by
  by_cases h₁ : tag = tagOrderId
  · obtain ⟨z, hz, hmin, hmax⟩ := h.orderId h₁
    subst h₁
    exact ⟨_, storeValue_orderId (hz.toUnsigned hmin hmax)⟩
  by_cases h₂ : tag = tagClOrdId
  · obtain ⟨z, hz, hmin, hmax⟩ := h.clientOrderId h₂
    subst h₂
    exact ⟨_, storeValue_clOrdId (hz.toUnsigned hmin hmax)⟩
  by_cases h₃ : tag = tagExecQty
  · obtain ⟨z, hz, hmin, hmax⟩ := h.executedQuantity h₃
    subst h₃
    exact ⟨_, storeValue_execQty (hz.toUnsigned hmin (hmax.trans (by decide)))⟩
  by_cases h₄ : tag = tagLastPx
  · obtain ⟨z, hz, hmin, hmax⟩ := h.executedPrice h₄
    subst h₄
    exact ⟨_, storeValue_lastPx (hz.toSigned hmin hmax)⟩
  exact ⟨_, storeValue_other h₁ h₂ h₃ h₄⟩

namespace RawField.Valid

theorem complete (h : f.Valid) : f.Complete := by
  obtain ⟨tag, htag, -⟩ := h.tag
  refine ⟨fun hmem => ?_, h.value⟩
  rcases htag.mem hmem with h | h
  · exact absurd h (by decide)
  · exact absurd h (by decide)

theorem stores (h : f.Valid) (report : ExecutionReport) :
    ∃ report', storeField report f = some report' := by
  obtain ⟨tag, htag, hmin, hmax, hfits⟩ := h.tag
  obtain ⟨report', hstore⟩ := hfits.stores report
  refine ⟨report', ?_⟩
  rw [storeField, htag.toSigned hmin hmax, Option.bind_some, hstore]

end RawField.Valid

theorem foldlM_valid (h : ∀ f ∈ fields, f.Valid) (report : ExecutionReport) :
    ∃ report', fields.foldlM storeField report = some report' := by
  induction fields generalizing report with
  | nil => exact ⟨report, rfl⟩
  | cons f fields ih =>
    obtain ⟨between, hfirst⟩ := (h f (.head _)).stores report
    obtain ⟨report', hrest⟩ := ih (fun f hf => h f (.tail _ hf)) between
    refine ⟨report', ?_⟩
    rw [List.foldlM_cons, hfirst]
    exact hrest

/-- The function fails cleanly only where it has no reason to fail: it never returns `false`, so any
other message makes it throw, or is taken for a good one. -/
theorem failsCleanly_iff (message : List UInt8) (report : ExecutionReport) :
    FailsCleanly message report ↔ WellFormed message := by
  constructor
  · rintro ⟨value, report', hret, htrue, -⟩
    exact htrue (value_of_returned hret)
  · rintro ⟨fields, rfl, hvalid⟩
    obtain ⟨report', hstore⟩ := foldlM_valid hvalid report
    have hret := decode_fields (fun f hf => (hvalid f hf).complete) hstore
    refine ⟨true, report', hret, fun _ => ⟨fields, rfl, hvalid⟩, fun h => ?_⟩
    cases h

/-- The first field has been stored when the conversion of the second throws. -/
theorem text_for_number_throws : ¬ ∀ message report, FailsCleanly message report := by
  intro h
  obtain ⟨value, report', hret, -⟩ := h [51, 55, 61, 53, 1, 49, 49, 61, 120, 1] {}
  have hthrow : decodeExecutionReport [51, 55, 61, 53, 1, 49, 49, 61, 120, 1] {} =
      some (.threw { orderId := 5 }) := by decide +kernel
  rw [hthrow] at hret
  cases hret

end Errors

end FixEncoder

end Velox
