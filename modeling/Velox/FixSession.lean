import Velox.FixMessages
import Velox.Lib.Codes
import Velox.Lib.Runs

namespace Velox
set_option autoImplicit true

inductive FixRequest
  | newOrder (o : Order)
  | cancelOrder (orderId : UInt64) (symbol : List UInt8)

/-- The names of the two parties can stand in fields. -/
structure FixEncoder.Connected (e : FixEncoder) : Prop where
  sender : 1 ∉ e.mSenderCompId
  target : 1 ∉ e.mTargetCompId

namespace FixRequest
open FixEncoder Decimal
open InformationTheory (UniquelyDecodable)

def encode (e : FixEncoder) : FixRequest → FixEncoder × List UInt8
  | newOrder o => (e.encodeNewOrder o).swap
  | cancelOrder orderId symbol => (e.encodeCancelOrder orderId symbol).swap

/-- The symbol can stand in a field. -/
def Sendable : FixRequest → Prop
  | newOrder o => o.symbol.Sendable
  | cancelOrder _ symbol => 1 ∉ symbol

def msgType : FixRequest → UInt8
  | newOrder _ => 68
  | cancelOrder .. => 70

def body : FixRequest → List (ℤ × List UInt8)
  | newOrder o =>
    [(tagClOrdId, decimal o.clientOrderId.toNat), (tagSymbol, o.symbol.cstr),
      (tagSide, if o.isBuy then [49] else [50]), (tagOrderQty, decimal o.quantity.toNat),
      (tagOrdType, if o.isLimit then [50] else [49])] ++
    if o.isLimit then [(tagPrice, decimalInt o.price.toInt)] else []
  | cancelOrder orderId symbol =>
    [(tagOrderId, decimal orderId.toNat), (tagSymbol, symbol)]

def bytes (fields : List (ℤ × List UInt8)) : List UInt8 := fields.flatMap fun f => field f.1 f.2

def header (e : FixEncoder) (r : FixRequest) : List (ℤ × List UInt8) :=
  [(tagBeginString, [70, 73, 88, 46, 52, 46, 50]), (tagMsgType, [r.msgType]), (49, e.mSenderCompId),
    (56, e.mTargetCompId), (34, decimalInt e.mMsgSeqNum.toInt)]

def trailer (r : FixRequest) : List (ℤ × List UInt8) :=
  let length := (tagBodyLength, decimal (UInt32.ofNat (bytes r.body).length).toNat)
  [length, (10, decimal (calculateChecksum (bytes [length] ++ bytes r.body)).toNat)]

def fields (e : FixEncoder) (r : FixRequest) : List (ℤ × List UInt8) :=
  r.header e ++ r.body ++ r.trailer

def apply (report : ExecutionReport) : FixRequest → ExecutionReport
  | newOrder o => { report with clientOrderId := o.clientOrderId }
  | cancelOrder orderId _ => { report with orderId }

variable {e : FixEncoder} {r : FixRequest} {report : ExecutionReport} {rs : List FixRequest}

theorem bytes_append (xs ys : List (ℤ × List UInt8)) : bytes (xs ++ ys) = bytes xs ++ bytes ys :=
  List.flatMap_append

theorem bytes_body (r : FixRequest) : bytes r.body = match r with
    | newOrder o => newOrderBody o
    | cancelOrder orderId symbol =>
      field tagOrderId (decimal orderId.toNat) ++ field tagSymbol symbol := by
  cases r with
  | newOrder o =>
    change bytes (body (newOrder o)) = newOrderBody o
    rw [body, newOrderBody]
    cases o.isLimit <;> simp [bytes]
  | cancelOrder orderId symbol => simp [body, bytes]

theorem encode_eq (e : FixEncoder) (r : FixRequest) :
    r.encode e = ({ e with mMsgSeqNum := e.mMsgSeqNum + 1 }, bytes (r.fields e)) := by
  have hheader : (e.makeHeader r.msgType).1 = bytes (r.header e) := by
    simp [makeHeader, header, bytes]
  have htrailer : makeTrailer (bytes r.body) = bytes r.trailer := by
    simp [makeTrailer, trailer, bytes]
  have hbody := bytes_body r
  rw [fields, bytes_append, bytes_append, ← hheader, ← htrailer, hbody]
  cases r <;> rfl

/-- A field with a tag that is not one of the four recognised. -/
def Ignored (f : ℤ × List UInt8) : Prop :=
  f.1 ∉ [tagOrderId, tagClOrdId, tagExecQty, tagLastPx]

theorem storeField_tag {tag : ℤ} (h : 0 ≤ tag ∧ tag < 2 ^ 31) (value : List UInt8) :
    storeField report (decimalInt tag, value) = storeValue tag value report := by
  have hmin : (-2 ^ (32 - 1) : ℤ) ≤ tag := (by decide : (-2 ^ (32 - 1) : ℤ) ≤ 0).trans h.1
  rw [storeField, (Spells.decimalInt tag).toSigned hmin h.2]
  rfl

def raw (fields : List (ℤ × List UInt8)) : List RawField := fields.map fun f => (decimalInt f.1, f.2)

theorem bytes_eq (fields : List (ℤ × List UInt8)) :
    bytes fields = (raw fields).flatMap RawField.bytes := by
  rw [raw, List.flatMap_map]
  rfl

theorem foldlM_ignored {fields : List (ℤ × List UInt8)}
    (h : ∀ f ∈ fields, (0 ≤ f.1 ∧ f.1 < 2 ^ 31) ∧ Ignored f) :
    (raw fields).foldlM storeField report = some report := by
  induction fields with
  | nil => rfl
  | cons f fields ih =>
    obtain ⟨hrange, hf⟩ := h f List.mem_cons_self
    simp only [Ignored, List.mem_cons, List.not_mem_nil, or_false, not_or] at hf
    rw [raw, List.map_cons, List.foldlM_cons, storeField_tag hrange,
      storeValue_other hf.1 hf.2.1 hf.2.2.1 hf.2.2.2]
    exact ih fun f' hf' => h f' (List.mem_cons_of_mem f hf')

theorem raw_append (xs ys : List (ℤ × List UInt8)) : raw (xs ++ ys) = raw xs ++ raw ys :=
  List.map_append

theorem ignored_header (e : FixEncoder) (r : FixRequest) :
    ∀ f ∈ r.header e, (0 ≤ f.1 ∧ f.1 < 2 ^ 31) ∧ Ignored f := by
  simp [header, Ignored, tagBeginString, tagMsgType, tagOrderId, tagClOrdId, tagExecQty, tagLastPx]

theorem ignored_trailer (r : FixRequest) :
    ∀ f ∈ r.trailer, (0 ≤ f.1 ∧ f.1 < 2 ^ 31) ∧ Ignored f := by
  simp [trailer, Ignored, tagBodyLength, tagOrderId, tagClOrdId, tagExecQty, tagLastPx]

theorem foldlM_first {tag : ℤ} {value : List UInt8} {rest : List (ℤ × List UInt8)}
    {report' : ExecutionReport} (htag : 0 ≤ tag ∧ tag < 2 ^ 31)
    (hfirst : storeValue tag value report = some report')
    (hrest : ∀ f ∈ rest, (0 ≤ f.1 ∧ f.1 < 2 ^ 31) ∧ Ignored f) :
    (raw ((tag, value) :: rest)).foldlM storeField report = some report' := by
  rw [raw, List.map_cons, List.foldlM_cons, storeField_tag htag, hfirst]
  exact foldlM_ignored hrest

theorem foldlM_body (r : FixRequest) :
    (raw r.body).foldlM storeField report = some (r.apply report) := by
  cases r with
  | newOrder o =>
    have hfirst : storeValue tagClOrdId (decimal o.clientOrderId.toNat) report =
        some { report with clientOrderId := o.clientOrderId } := by
      rw [storeValue_clOrdId (ReportField.toUnsigned_decimal o.clientOrderId.toNat_lt),
        UInt64.ofNat_toNat]
    apply foldlM_first (by decide) hfirst
    cases o.isLimit <;> simp [Ignored, tagSymbol, tagSide, tagOrderQty, tagOrdType,
      tagPrice, tagOrderId, tagClOrdId, tagExecQty, tagLastPx]
  | cancelOrder orderId symbol =>
    have hfirst : storeValue tagOrderId (decimal orderId.toNat) report =
        some { report with orderId } := by
      rw [storeValue_orderId (ReportField.toUnsigned_decimal orderId.toNat_lt), UInt64.ofNat_toNat]
    apply foldlM_first (by decide) hfirst
    simp [Ignored, tagSymbol, tagOrderId, tagClOrdId, tagExecQty, tagLastPx]

theorem foldlM_fields (e : FixEncoder) (r : FixRequest) :
    (raw (r.fields e)).foldlM storeField report = some (r.apply report) := by
  rw [fields, raw_append, raw_append, List.foldlM_append, List.foldlM_append,
    foldlM_ignored (r.ignored_header e), Option.bind_eq_bind, Option.bind_some, foldlM_body,
    Option.bind_some, foldlM_ignored r.ignored_trailer]

theorem complete (he : e.Connected) (hr : r.Sendable) : ∀ f ∈ raw (r.fields e), f.Complete := by
  have hheader : ∀ f ∈ r.header e, 1 ∉ f.2 := by
    have hversion : (1 : UInt8) ∉ [70, 73, 88, 46, 52, 46, 50] := by decide
    have htype : 1 ∉ [r.msgType] := by cases r <;> simp [msgType]
    simpa only [header, List.forall_mem_cons] using
      ⟨hversion, htype, he.sender, he.target, soh_not_mem_decimalInt _, List.forall_mem_nil _⟩
  have hbody : ∀ f ∈ r.body, 1 ∉ f.2 := by
    cases r with
    | newOrder o =>
      have hsymbol := soh_not_mem_cstr hr
      cases hl : o.isLimit <;> cases hb : o.isBuy <;>
        simp [body, hl, hb, soh_not_mem_decimal, soh_not_mem_decimalInt, hsymbol]
    | cancelOrder orderId symbol =>
      simpa only [body, List.forall_mem_cons] using
        ⟨soh_not_mem_decimal _, hr, List.forall_mem_nil _⟩
  have htrailer : ∀ f ∈ r.trailer, 1 ∉ f.2 := by
    simp only [trailer, List.forall_mem_cons]
    exact ⟨soh_not_mem_decimal _, soh_not_mem_decimal _, List.forall_mem_nil _⟩
  intro f hf
  obtain ⟨x, hx, rfl⟩ := List.mem_map.1 hf
  refine ⟨not_mem_decimalInt x.1 (by decide) (by decide), ?_⟩
  rcases List.mem_append.1 hx with hx | hx
  · exact (List.mem_append.1 hx).elim (hheader x) (hbody x)
  · exact htrailer x hx

theorem delimited : Delimited RawField.bytes {f | f.Complete} where
  ne_nil f _ h := by
    rw [RawField.bytes, fixField, List.append_eq_nil_iff] at h
    cases h.2
  append_inj f hf g hg us vs h := by
    rw [RawField.bytes, RawField.bytes, fixField_append, fixField_append] at h
    obtain ⟨htag, hrest⟩ := Cut.append_inj hf.tag hg.tag h
    obtain ⟨hvalue, hrest⟩ := Cut.append_inj hf.value hg.value hrest
    exact ⟨Prod.ext htag hvalue, hrest⟩

/-- A message starts with the version, and the tag of the version stands nowhere else. -/
theorem led (e : FixEncoder) (r : FixRequest) :
    Led (fun f => f.1 = decimalInt tagBeginString) (raw (r.fields e)) := by
  refine ⟨_, raw ((r.header e).tail ++ r.body ++ r.trailer), rfl, rfl, ?_⟩
  have hother : ∀ f ∈ (r.header e).tail ++ r.body ++ r.trailer, f.1 ≠ tagBeginString := by
    cases r with
    | newOrder o =>
      cases h : o.isLimit <;> simp [header, body, trailer, h, tagBeginString, tagMsgType, tagClOrdId,
        tagSymbol, tagSide, tagOrderQty, tagOrdType, tagPrice, tagBodyLength]
    | cancelOrder orderId symbol =>
      simp [header, body, trailer, tagBeginString, tagMsgType, tagOrderId, tagSymbol, tagBodyLength]
  intro f hf h
  obtain ⟨x, hx, rfl⟩ := List.mem_map.1 hf
  exact hother x hx (decimalInt_injective h)

/-- The messages that encoders send, as fields and as bytes. -/
def written : Set (List RawField) :=
  {xs | ∃ (e : FixEncoder) (r : FixRequest), e.Connected ∧ r.Sendable ∧ xs = raw (r.fields e)}

def sent : Set (List UInt8) :=
  {m | ∃ (e : FixEncoder) (r : FixRequest), e.Connected ∧ r.Sendable ∧ m = (r.encode e).2}

theorem sent_eq : sent = (fun xs => xs.flatMap RawField.bytes) '' written := by
  ext m
  constructor
  · rintro ⟨e, r, he, hr, rfl⟩
    refine ⟨raw (r.fields e), ⟨e, r, he, hr, rfl⟩, ?_⟩
    rw [encode_eq, bytes_eq]
  · rintro ⟨xs, ⟨e, r, he, hr, rfl⟩, rfl⟩
    refine ⟨e, r, he, hr, ?_⟩
    rw [encode_eq, bytes_eq]

theorem complete_of_written {xs : List RawField} (h : xs ∈ written) : ∀ f ∈ xs, f.Complete := by
  obtain ⟨e, r, he, hr, rfl⟩ := h
  exact complete he hr

theorem led_of_written {xs : List RawField} (h : xs ∈ written) :
    Led (fun f => f.1 = decimalInt tagBeginString) xs := by
  obtain ⟨e, r, -, -, rfl⟩ := h
  exact led e r

/-- Messages written one after the other can be told apart, whoever wrote them. -/
theorem sent_uniquelyDecodable : UniquelyDecodable sent := by
  rw [sent_eq]
  apply Codes.uniquelyDecodable_flatMap delimited _ fun xs hxs => complete_of_written hxs
  intro xss yss hxss hyss
  exact Codes.uniquelyDecodable_led _ xss yss (fun xs hxs => led_of_written (hxss xs hxs))
    fun ys hys => led_of_written (hyss ys hys)

section Session

theorem connected_encode (h : e.Connected) (r : FixRequest) : (r.encode e).1.Connected := by
  rw [encode_eq]
  exact ⟨h.sender, h.target⟩

theorem number_encode (r : FixRequest) (h : e.mMsgSeqNum.toInt + 1 < 2 ^ 31) :
    (r.encode e).1.mMsgSeqNum.toInt = e.mMsgSeqNum.toInt + 1 := by
  have hle := e.mMsgSeqNum.le_toInt
  have hone : (1 : Int32).toInt = 1 := rfl
  rw [encode_eq]
  change (e.mMsgSeqNum + 1).toInt = _
  rw [Int32.toInt_add, hone]
  exact Int.bmod_eq_of_le_mul_two (by omega) (by omega)

/-- Every message is written by an encoder whose counter has not gone back. -/
theorem mem_session {m : List UInt8} (he : e.Connected) (hrs : ∀ r ∈ rs, r.Sendable)
    (hfit : e.mMsgSeqNum.toInt + rs.length < 2 ^ 31)
    (h : m ∈ (Runs.transduce encode e rs).2) :
    ∃ (f : FixEncoder) (r : FixRequest), f.Connected ∧ r.Sendable ∧ m = (r.encode f).2 ∧
      e.mMsgSeqNum.toInt ≤ f.mMsgSeqNum.toInt := by
  induction rs generalizing e with
  | nil => cases h
  | cons r rs ih =>
    obtain ⟨hr, hrs⟩ := List.forall_mem_cons.1 hrs
    rw [List.length_cons] at hfit
    push_cast at hfit
    rcases List.mem_cons.1 h with rfl | h
    · exact ⟨e, r, he, hr, rfl, le_rfl⟩
    · have hnext := number_encode (e := e) r (by omega)
      obtain ⟨f, r', hf, hr', rfl, hle⟩ := ih (connected_encode he r) hrs (by rw [hnext]; omega) h
      exact ⟨f, r', hf, hr', rfl, by omega⟩

theorem number_of_encode_eq {f : FixEncoder} {r' : FixRequest} (he : e.Connected) (hr : r.Sendable)
    (hf : f.Connected) (hr' : r'.Sendable) (h : (r.encode e).2 = (r'.encode f).2) :
    e.mMsgSeqNum = f.mMsgSeqNum := by
  rw [encode_eq, encode_eq, bytes_eq, bytes_eq] at h
  have hfields := Codes.flatMap_inj delimited (complete he hr) (complete hf hr') h
  have hnumber : some (decimalInt 34, decimalInt e.mMsgSeqNum.toInt) =
      some (decimalInt 34, decimalInt f.mMsgSeqNum.toInt) := congrArg (fun xs => xs[4]?) hfields
  exact Int32.toInt_inj.1 (decimalInt_injective (Prod.mk.inj (Option.some.inj hnumber)).2)

theorem nodup_session (he : e.Connected) (hrs : ∀ r ∈ rs, r.Sendable)
    (hfit : e.mMsgSeqNum.toInt + rs.length < 2 ^ 31) : (Runs.transduce encode e rs).2.Nodup := by
  induction rs generalizing e with
  | nil => exact List.nodup_nil
  | cons r rs ih =>
    obtain ⟨hr, hrs⟩ := List.forall_mem_cons.1 hrs
    rw [List.length_cons] at hfit
    push_cast at hfit
    have hnext := number_encode (e := e) r (by omega)
    have hfit' : (r.encode e).1.mMsgSeqNum.toInt + rs.length < 2 ^ 31 := by omega
    apply List.nodup_cons.2
    constructor
    · intro hmem
      obtain ⟨f, r', hf, hr', heq, hle⟩ := mem_session (connected_encode he r) hrs hfit' hmem
      rw [hnext, number_of_encode_eq he hr hf hr' heq] at hle
      omega
    · exact ih (connected_encode he r) hrs hfit'

theorem number_session (hfit : e.mMsgSeqNum.toInt + rs.length < 2 ^ 31) :
    (Runs.transduce encode e rs).1.mMsgSeqNum.toInt = e.mMsgSeqNum.toInt + rs.length := by
  induction rs generalizing e with
  | nil => exact (Int.add_zero _).symm
  | cons r rs ih =>
    rw [List.length_cons] at hfit ⊢
    push_cast at hfit ⊢
    have hnext := number_encode (e := e) r (by omega)
    have hrest := ih (e := (r.encode e).1) (by omega)
    rw [Runs.transduce, hrest, hnext]
    omega

theorem exists_fields (he : e.Connected) (hrs : ∀ r ∈ rs, r.Sendable) :
    ∃ fields : List RawField,
      (Runs.transduce encode e rs).2.flatten = fields.flatMap RawField.bytes ∧
      (∀ f ∈ fields, f.Complete) ∧
      ∀ report, fields.foldlM storeField report = some (rs.foldl apply report) := by
  induction rs generalizing e with
  | nil => exact ⟨[], rfl, List.forall_mem_nil _, fun report => rfl⟩
  | cons r rs ih =>
    obtain ⟨hr, hrs⟩ := List.forall_mem_cons.1 hrs
    obtain ⟨fields, hbytes, hcomplete, hfold⟩ := ih (connected_encode he r) hrs
    refine ⟨raw (r.fields e) ++ fields, ?_, ?_, ?_⟩
    · rw [Runs.transduce, List.flatten_cons, hbytes, List.flatMap_append, ← bytes_eq]
      rw [encode_eq]
    · intro f hf
      exact (List.mem_append.1 hf).elim (complete he hr f) (hcomplete f)
    · intro report
      rw [List.foldlM_append, foldlM_fields]
      exact hfold (r.apply report)

/-- Over a session with names and symbols that can stand in a field, until the numbers overflow, no two
messages are alike, as the numbers go up by one, and the decoder reads the whole stream: it leaves the
last identifier of each kind in the report. -/
theorem session_decoded (he : e.Connected) (hrs : ∀ r ∈ rs, r.Sendable)
    (hfit : e.mMsgSeqNum.toInt + rs.length < 2 ^ 31) (report : ExecutionReport) :
    (Runs.transduce encode e rs).2.Nodup ∧
      (Runs.transduce encode e rs).1.mMsgSeqNum.toInt = e.mMsgSeqNum.toInt + rs.length ∧
      decodeExecutionReport (Runs.transduce encode e rs).2.flatten report =
        some (.returned true (rs.foldl apply report)) := by
  obtain ⟨fields, hbytes, hcomplete, hfold⟩ := exists_fields he hrs
  refine ⟨nodup_session he hrs hfit, number_session hfit, ?_⟩
  rw [hbytes]
  exact decode_fields hcomplete (hfold report)

/-- An order and its cancel. -/
theorem session_decoded_cancelled :
    (Runs.transduce encode {} [newOrder fokOrder, cancelOrder 7 [65, 65, 80, 76]]).2.Nodup ∧
      (Runs.transduce encode {} [newOrder fokOrder, cancelOrder 7 [65, 65, 80, 76]]).1.mMsgSeqNum.toInt =
        1 + 2 ∧
      decodeExecutionReport
          (Runs.transduce encode {} [newOrder fokOrder, cancelOrder 7 [65, 65, 80, 76]]).2.flatten {} =
        some (.returned true { clientOrderId := fokOrder.clientOrderId, orderId := 7 }) := by
  have hrs : ∀ r ∈ [newOrder fokOrder, cancelOrder 7 [65, 65, 80, 76]], r.Sendable := by
    have hcancel : (cancelOrder 7 [65, 65, 80, 76]).Sendable :=
      (by decide : 1 ∉ ([65, 65, 80, 76] : List UInt8))
    rw [List.forall_mem_cons, List.forall_mem_singleton]
    exact ⟨sendable_aapl, hcancel⟩
  exact session_decoded (e := {}) ⟨by decide, by decide⟩ hrs (by decide) {}

end Session

end FixRequest

end Velox
