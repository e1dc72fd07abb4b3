import Velox.ExecutionGateway
import Velox.Lib.Cut
import Velox.Lib.Decimal
import Velox.Lib.Loop

namespace Velox
set_option autoImplicit true

def Order.isLimit (o : Order) : Bool := o.type == .LIMIT

structure FixEncoder where
  mSenderCompId : List UInt8 := [83, 69, 78, 68, 69, 82]
  mTargetCompId : List UInt8 := [84, 65, 82, 71, 69, 84]
  mMsgSeqNum : Int32 := 1

/-- A tag, `=`, a value and the byte that ends a field. -/
def fixField (tag value : List UInt8) : List UInt8 := tag ++ 61 :: (value ++ [1])

namespace FixEncoder
open Decimal

def tagBeginString : ℤ := 8
def tagBodyLength : ℤ := 9
def tagMsgType : ℤ := 35
def tagOrderId : ℤ := 37
def tagClOrdId : ℤ := 11
def tagSymbol : ℤ := 55
def tagSide : ℤ := 54
def tagOrderQty : ℤ := 38
def tagPrice : ℤ := 44
def tagOrdType : ℤ := 40
def tagExecQty : ℤ := 32
def tagLastPx : ℤ := 31

def field (tag : ℤ) (value : List UInt8) : List UInt8 := fixField (decimalInt tag) value

/-- The sequence number is counted up by every header. -/
def makeHeader (msgType : UInt8) (e : FixEncoder) : List UInt8 × FixEncoder :=
  (field tagBeginString [70, 73, 88, 46, 52, 46, 50] ++ (field tagMsgType [msgType] ++
    (field 49 e.mSenderCompId ++ (field 56 e.mTargetCompId ++
      field 34 (decimalInt e.mMsgSeqNum.toInt)))),
    { e with mMsgSeqNum := e.mMsgSeqNum + 1 })

def calculateChecksum (message : List UInt8) : UInt32 :=
  message.foldl (fun sum c => sum + c.toUInt32) 0 % 256

def makeTrailer (body : List UInt8) : List UInt8 :=
  let trailer := field tagBodyLength (decimal (UInt32.ofNat body.length).toNat)
  trailer ++ field 10 (decimal (calculateChecksum (trailer ++ body)).toNat)

def newOrderBody (o : Order) : List UInt8 :=
  field tagClOrdId (decimal o.clientOrderId.toNat) ++ (field tagSymbol o.symbol.cstr ++
    (field tagSide (if o.isBuy then [49] else [50]) ++
      (field tagOrderQty (decimal o.quantity.toNat) ++
        (field tagOrdType (if o.isLimit then [50] else [49]) ++
          if o.isLimit then field tagPrice (decimalInt o.price.toInt) else []))))

def encodeNewOrder (o : Order) (e : FixEncoder) : List UInt8 × FixEncoder :=
  let body := newOrderBody o
  let header := e.makeHeader 68
  (header.1 ++ body ++ makeTrailer body, header.2)

def encodeCancelOrder (orderId : UInt64) (symbol : List UInt8) (e : FixEncoder) :
    List UInt8 × FixEncoder :=
  let body := field tagOrderId (decimal orderId.toNat) ++ field tagSymbol symbol
  let header := e.makeHeader 70
  (header.1 ++ body ++ makeTrailer body, header.2)

/-- The switch on the tag; `none` is an exception. The quantity is converted from 64 bits. -/
def storeValue (tag : ℤ) (value : List UInt8) (report : ExecutionReport) :
    Option ExecutionReport :=
  if tag = tagOrderId then
    (toUnsigned 64 value).map fun n => { report with orderId := UInt64.ofNat n }
  else if tag = tagClOrdId then
    (toUnsigned 64 value).map fun n => { report with clientOrderId := UInt64.ofNat n }
  else if tag = tagExecQty then
    (toUnsigned 64 value).map fun n => { report with executedQuantity := UInt32.ofNat n }
  else if tag = tagLastPx then
    (toSigned 64 value).map fun z => { report with executedPrice := Int64.ofInt z }
  else some report

/-- The loop of `decode_execution_report`: the message from `pos` on, and whether a conversion has
thrown. -/
structure DecodeLoop where
  report : ExecutionReport
  rest : List UInt8
  threw : Bool := false

def decodeBody (s : DecodeLoop) : Option (DecodeLoop ⊕ DecodeLoop) :=
  if s.rest = [] then some (.inl s) else
  match cut 61 s.rest with
  | none => some (.inl s)
  | some (tagText, rest) =>
    match toSigned 32 tagText with
    | none => some (.inl { s with threw := true })
    | some tag =>
      match cut 1 rest with
      | none => some (.inl s)
      | some (value, rest) =>
        match storeValue tag value s.report with
        | none => some (.inl { s with threw := true })
        | some report => some (.inr { s with report, rest })

/-- How a call ended, and what it left in the report that was passed to it. -/
inductive Decoded
  | returned (value : Bool) (report : ExecutionReport)
  | threw (report : ExecutionReport)
  deriving DecidableEq

/-- Every field takes a byte or more, so the length of the message bounds the turns. -/
def decodeExecutionReport (fixMessage : List UInt8) (report : ExecutionReport) : Option Decoded :=
  (Loop.run decodeBody (fixMessage.length + 1) { report, rest := fixMessage }).map fun s =>
    if s.threw then .threw s.report else .returned true s.report

end FixEncoder

end Velox
