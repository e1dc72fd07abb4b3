import Velox.FixDecoding

namespace Velox
set_option autoImplicit true

/-- A symbol that can stand in a field. -/
structure Symbol.Sendable (s : Symbol) : Prop where
  terminated : 0 ∈ s.toList
  no_soh : 1 ∉ s.toList

/-- Orders that agree in what every message about them shows. -/
structure Order.SameCore (o o' : Order) : Prop where
  clientOrderId : o.clientOrderId = o'.clientOrderId
  symbol : o.symbol.cstr = o'.symbol.cstr
  side : o.side = o'.side
  quantity : o.quantity = o'.quantity

/-- Orders that an exchange would treat alike. -/
structure Order.Agrees (o o' : Order) : Prop extends o.SameCore o' where
  type : o.type = o'.type
  price : o.type ≠ .MARKET → o.price = o'.price

namespace FixEncoder
open Decimal

def threeDigits (n : ℕ) : List UInt8 := [digit (n / 100), digit (n / 10 % 10), digit (n % 10)]

/-- A message that begins with the fields 8, 9 and 35 and ends with the field 10, where 9 has the
number of bytes between it and 10, and 10 the sum of all bytes before it. -/
structure Framed (beginString bodyLength msgType checksum : List UInt8) (fields : List RawField)
    (message : List UInt8) : Prop where
  ends : 1 ∉ beginString ∧ 1 ∉ bodyLength ∧ 1 ∉ msgType ∧ ∀ f ∈ fields, f.Complete
  bytes : message = field tagBeginString beginString ++ (field tagBodyLength bodyLength ++
    (field tagMsgType msgType ++ (fields.flatMap RawField.bytes ++ field 10 checksum)))
  length : bodyLength =
    decimal (field tagMsgType msgType ++ fields.flatMap RawField.bytes).length
  sum : checksum = threeDigits (((field tagBeginString beginString ++
    (field tagBodyLength bodyLength ++ (field tagMsgType msgType ++
      fields.flatMap RawField.bytes))).map UInt8.toNat).sum % 256)

def WellFramed (message : List UInt8) : Prop :=
  ∃ beginString bodyLength msgType checksum fields,
    Framed beginString bodyLength msgType checksum fields message

/-- For two orders, equal messages mean that the orders agree. -/
def Distinguishes (e : FixEncoder) (o o' : Order) : Prop :=
  (e.encodeNewOrder o).1 = (e.encodeNewOrder o').1 → o.Agrees o'

section Fields
variable {tag : ℤ} {value value' rest rest' message : List UInt8} {o o' : Order} {e : FixEncoder}

theorem field_append (tag : ℤ) (value rest : List UInt8) :
    field tag value ++ rest = decimalInt tag ++ 61 :: (value ++ 1 :: rest) :=
  fixField_append _ _ _

theorem field_append_inj (h : 1 ∉ value) (h' : 1 ∉ value') :
    field tag value ++ rest = field tag value' ++ rest' ↔ value = value' ∧ rest = rest' := by
  rw [field_append, field_append, List.append_cancel_left_eq, List.cons_inj_right]
  constructor
  · exact Cut.append_inj h h'
  · rintro ⟨rfl, rfl⟩
    rfl

theorem makeHeader_append (msgType : UInt8) (e : FixEncoder) (rest : List UInt8) :
    ∃ rest', (e.makeHeader msgType).1 ++ rest =
      field tagBeginString [70, 73, 88, 46, 52, 46, 50] ++ (field tagMsgType [msgType] ++ rest') :=
  ⟨_, by rw [makeHeader, List.append_assoc, List.append_assoc]⟩

theorem not_wellFramed_of_header (msgType : UInt8) (e : FixEncoder) (rest : List UInt8) :
    ¬ WellFramed ((e.makeHeader msgType).1 ++ rest) := by
  rintro ⟨beginString, bodyLength, msgType', checksum, fields, h⟩
  obtain ⟨rest', hhead⟩ := makeHeader_append msgType e rest
  have hbytes := h.bytes
  rw [hhead, field_append_inj (by decide) h.ends.1] at hbytes
  rw [field_append, field_append] at hbytes
  have hmsgType : decimalInt tagMsgType = [51, 53] := by decide
  have hbodyLength : decimalInt tagBodyLength = [57] := by decide
  rw [hmsgType, hbodyLength] at hbytes
  -- the first digit of the tag 35 stands where the tag 9 should
  have hdigit : (51 : UInt8) = 57 := List.head_eq_of_cons_eq hbytes.2
  exact absurd hdigit (by decide)

/-- No message is well framed: the field 9 never stands second. -/
theorem messages_never_framed (e : FixEncoder) :
    (∀ o, ¬ WellFramed (e.encodeNewOrder o).1) ∧
      ∀ orderId symbol, ¬ WellFramed (e.encodeCancelOrder orderId symbol).1 := by
  constructor
  · intro o
    rw [encodeNewOrder, List.append_assoc]
    exact not_wellFramed_of_header _ _ _
  · intro orderId symbol
    rw [encodeCancelOrder, List.append_assoc]
    exact not_wellFramed_of_header _ _ _

/-- The message of a new encoder for a limit order. -/
theorem first_message_not_framed :
    ¬ WellFramed (({} : FixEncoder).encodeNewOrder
      { clientOrderId := 7, symbol := .ofChars [65, 65, 80, 76], price := 100, quantity := 10 }).1 := by
  rw [encodeNewOrder, List.append_assoc]
  exact not_wellFramed_of_header _ _ _

theorem newOrderBody_append (o : Order) (rest : List UInt8) : newOrderBody o ++ rest =
    field tagClOrdId (decimal o.clientOrderId.toNat) ++ (field tagSymbol o.symbol.cstr ++
      (field tagSide (if o.isBuy then [49] else [50]) ++
        (field tagOrderQty (decimal o.quantity.toNat) ++
          (field tagOrdType (if o.isLimit then [50] else [49]) ++
            ((if o.isLimit then field tagPrice (decimalInt o.price.toInt) else []) ++ rest))))) := by
  simp only [newOrderBody, List.append_assoc]

/-- No printed number holds the byte that ends a field. -/
theorem soh_not_mem_decimal (n : ℕ) : 1 ∉ decimal n := not_mem_decimal n (by decide)

theorem soh_not_mem_decimalInt (z : ℤ) : 1 ∉ decimalInt z :=
  not_mem_decimalInt z (by decide) (by decide)

theorem soh_not_mem_cstr (h : o.symbol.Sendable) : 1 ∉ o.symbol.cstr :=
  fun hmem => h.no_soh ((List.takeWhile_sublist _).mem hmem)

theorem side_eq_iff : (if o.isBuy then [(49 : UInt8)] else [50]) = (if o'.isBuy then [49] else [50]) ↔
    o.side = o'.side := by
  rw [Order.isBuy, Order.isBuy]
  cases o.side <;> cases o'.side <;> decide

theorem ordType_eq_iff : (if o.isLimit then [(50 : UInt8)] else [49]) =
    (if o'.isLimit then [50] else [49]) ↔ o.isLimit = o'.isLimit := by
  cases o.isLimit <;> cases o'.isLimit <;> decide

theorem encodeNewOrder_eq_iff (h : o.symbol.Sendable) (h' : o'.symbol.Sendable) (e : FixEncoder) :
    (e.encodeNewOrder o).1 = (e.encodeNewOrder o').1 ↔
      o.SameCore o' ∧ o.isLimit = o'.isLimit ∧ (o.isLimit = true → o.price = o'.price) := by
  have hside (o : Order) : 1 ∉ (if o.isBuy then [(49 : UInt8)] else [50]) := by
    cases o.isBuy <;> decide
  have htype (o : Order) : 1 ∉ (if o.isLimit then [(50 : UInt8)] else [49]) := by
    cases o.isLimit <;> decide
  constructor
  · intro hmessage
    rw [encodeNewOrder, encodeNewOrder, List.append_assoc, List.append_assoc] at hmessage
    have hbody := List.append_cancel_left hmessage
    rw [newOrderBody_append, newOrderBody_append] at hbody
    obtain ⟨hid, hbody⟩ :=
      (field_append_inj (soh_not_mem_decimal _) (soh_not_mem_decimal _)).1 hbody
    obtain ⟨hsymbol, hbody⟩ := (field_append_inj (soh_not_mem_cstr h) (soh_not_mem_cstr h')).1 hbody
    obtain ⟨hsides, hbody⟩ := (field_append_inj (hside o) (hside o')).1 hbody
    obtain ⟨hquantity, hbody⟩ :=
      (field_append_inj (soh_not_mem_decimal _) (soh_not_mem_decimal _)).1 hbody
    obtain ⟨htypes, hbody⟩ := (field_append_inj (htype o) (htype o')).1 hbody
    have hlimit := ordType_eq_iff.1 htypes
    refine ⟨⟨UInt64.toNat_inj.1 (decimal_injective hid), hsymbol, side_eq_iff.1 hsides,
      UInt32.toNat_inj.1 (decimal_injective hquantity)⟩, hlimit, fun ho => ?_⟩
    rw [← hlimit, ho, if_pos rfl, if_pos rfl] at hbody
    have hprice :=
      (field_append_inj (soh_not_mem_decimalInt _) (soh_not_mem_decimalInt _)).1 hbody
    exact Int64.toInt_inj.1 (decimalInt_injective hprice.1)
  · rintro ⟨hcore, hlimit, hprice⟩
    have hlast : (if o.isLimit then field tagPrice (decimalInt o.price.toInt) else []) =
        if o'.isLimit then field tagPrice (decimalInt o'.price.toInt) else [] := by
      rw [← hlimit]
      split
      · rename_i ho
        rw [hprice ho]
      · rfl
    have hbody : newOrderBody o = newOrderBody o' := by
      rw [newOrderBody, newOrderBody, hcore.clientOrderId, hcore.symbol, hcore.quantity,
        side_eq_iff.2 hcore.side, ordType_eq_iff.2 hlimit, hlast]
    rw [encodeNewOrder, encodeNewOrder, hbody]

theorem isLimit_iff : o.isLimit = true ↔ o.type = .LIMIT := by
  rw [Order.isLimit, beq_iff_eq]

/-- Messages tell orders apart unless neither of them is a limit order: these have the same message
when their cores agree, whatever their types and prices. -/
theorem distinguishes_iff (h : o.symbol.Sendable) (h' : o'.symbol.Sendable) (e : FixEncoder) :
    e.Distinguishes o o' ↔
      (o.type ≠ .LIMIT → o'.type ≠ .LIMIT → o.SameCore o' →
        o.type = o'.type ∧ (o.type ≠ .MARKET → o.price = o'.price)) := by
  rw [Distinguishes, encodeNewOrder_eq_iff h h']
  constructor
  · intro hdist hnot hnot' hcore
    have hno : o.isLimit = false := Bool.eq_false_iff.2 (isLimit_iff.not.2 hnot)
    have hno' : o'.isLimit = false := Bool.eq_false_iff.2 (isLimit_iff.not.2 hnot')
    have hagrees := hdist ⟨hcore, hno.trans hno'.symm, fun ho => absurd (isLimit_iff.1 ho) hnot⟩
    exact ⟨hagrees.type, hagrees.price⟩
  · rintro hcond ⟨hcore, hlimit, hprice⟩
    by_cases ho : o.type = .LIMIT
    · have ho' : o'.type = .LIMIT := isLimit_iff.1 (hlimit ▸ isLimit_iff.2 ho)
      exact ⟨hcore, ho.trans ho'.symm, fun _ => hprice (isLimit_iff.2 ho)⟩
    · have ho' : o'.type ≠ .LIMIT := fun h => ho (isLimit_iff.1 (hlimit ▸ isLimit_iff.2 h))
      obtain ⟨htype, hprice⟩ := hcond ho ho' hcore
      exact ⟨hcore, htype, hprice⟩

def fokOrder : Order :=
  { clientOrderId := 7, symbol := .ofChars [65, 65, 80, 76], price := 100, quantity := 10, type := .FOK }

def marketOrder : Order := { fokOrder with type := .MARKET, price := 0 }

theorem sendable_aapl : (Symbol.ofChars [65, 65, 80, 76]).Sendable := ⟨by decide, by decide⟩

theorem fok_market_undistinguished :
    fokOrder.symbol.Sendable ∧ marketOrder.symbol.Sendable ∧
      ¬ ({} : FixEncoder).Distinguishes fokOrder marketOrder := by
  have hfok : fokOrder.symbol.Sendable := sendable_aapl
  have hmarket : marketOrder.symbol.Sendable := sendable_aapl
  refine ⟨hfok, hmarket, fun h => ?_⟩
  have hcond := (distinguishes_iff hfok hmarket {}).1 h (by decide) (by decide) ⟨rfl, rfl, rfl, rfl⟩
  exact absurd hcond.1 (by decide)

/-- The two messages are the same, so the exchange cannot tell which order was meant. -/
theorem fok_sent_as_market : ¬ ∀ (e : FixEncoder) (o o' : Order),
    o.symbol.Sendable → o'.symbol.Sendable → e.Distinguishes o o' := by
  intro h
  have hagrees := h {} fokOrder marketOrder sendable_aapl sendable_aapl (by decide +kernel)
  exact absurd hagrees.type (by decide)

end Fields

end FixEncoder

end Velox
