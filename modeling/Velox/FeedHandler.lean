import Velox.Order
import Velox.Lib.Loop

namespace Velox
set_option autoImplicit true

abbrev CallbackId := ℕ

inductive Invocation
  | addOrder (cb : CallbackId) (order : Order)
  | cancelOrder (cb : CallbackId) (orderId : UInt64)
  | modifyOrder (cb : CallbackId) (orderId : UInt64) (newQuantity : UInt32) (newPrice : Int64)
  | trade (cb : CallbackId) (orderId : UInt64) (quantity : UInt32) (price : Int64)
  deriving DecidableEq

/-- `none` is an empty `std::function`. -/
abbrev Callbacks := List (Option CallbackId)

structure FeedHandler where
  mMessageCount : UInt64 := 0
  mErrorCount : UInt64 := 0
  mOnAddOrder : Callbacks := []
  mOnCancelOrder : Callbacks := []
  mOnModifyOrder : Callbacks := []
  mOnTrade : Callbacks := []
  deriving DecidableEq

structure FeedRun where
  handler : FeedHandler
  calls : List Invocation := []
  deriving DecidableEq

namespace FeedHandler

def onAddOrder (cb : Option CallbackId) (h : FeedHandler) : FeedHandler :=
  { h with mOnAddOrder := h.mOnAddOrder ++ [cb] }

def onCancelOrder (cb : Option CallbackId) (h : FeedHandler) : FeedHandler :=
  { h with mOnCancelOrder := h.mOnCancelOrder ++ [cb] }

def onModifyOrder (cb : Option CallbackId) (h : FeedHandler) : FeedHandler :=
  { h with mOnModifyOrder := h.mOnModifyOrder ++ [cb] }

def onTrade (cb : Option CallbackId) (h : FeedHandler) : FeedHandler :=
  { h with mOnTrade := h.mOnTrade ++ [cb] }

end FeedHandler

/-- The byte at an offset from a pointer; every use is below the length that was checked. -/
def byteAt (data : List UInt8) (i : ℕ) : UInt8 := data.getD i 0

def bytesAt (data : List UInt8) (offset count : ℕ) : List UInt8 :=
  (List.range count).map fun i => byteAt data (offset + i)

def readUInt64 (data : List UInt8) (offset : ℕ) : UInt64 :=
  (bytesAt data offset 8).foldl (fun n b => n <<< 8 ||| b.toUInt64) 0

def readUInt32 (data : List UInt8) (offset : ℕ) : UInt32 :=
  (bytesAt data offset 4).foldl (fun n b => n <<< 8 ||| b.toUInt32) 0

def parseTimestamp (data : List UInt8) (offset : ℕ) : UInt64 := readUInt64 data offset

def parsePrice (data : List UInt8) (offset : ℕ) : UInt64 := (readUInt32 data offset).toUInt64

/-- `strncpy` of six bytes: what follows the first zero is zero. -/
def copySymbol (data : List UInt8) (offset : ℕ) : List UInt8 :=
  let chars := (bytesAt data offset 6).takeWhile (· ≠ 0)
  chars ++ List.replicate (6 - chars.length) 0

/-- The six characters with the spaces at their end made zeros, and two zeros after them. -/
def parseSymbol (data : List UInt8) (offset : ℕ) : Symbol :=
  .ofChars ((copySymbol data offset).rdropWhile (· == 32))

/-- The order that `parse_add_order` hands to its callbacks. -/
def addedOrder (data : List UInt8) : Order :=
  let quantity := readUInt32 data 30
  { orderId := readUInt64 data 11
    symbol := parseSymbol data 19
    side := if byteAt data 25 = 66 then .BUY else .SELL
    price := (parsePrice data 26).toInt64
    quantity
    remainingQuantity := quantity
    receivedTimestamp := parseTimestamp data 3
    type := .LIMIT
    status := .NEW }

namespace FeedRun

def error (s : FeedRun) : FeedRun :=
  { s with handler.mErrorCount := s.handler.mErrorCount + 1 }

/-- A parser: a message that is too short is an error, any other one is announced to every callback
that is not empty, and counted. -/
def parse (minimum : ℕ) (callbacks : FeedHandler → Callbacks) (announce : CallbackId → Invocation)
    (len : ℕ) (s : FeedRun) : FeedRun :=
  if len < minimum then s.error
  else {
    handler := { s.handler with mMessageCount := s.handler.mMessageCount + 1 }
    calls := s.calls ++ (callbacks s.handler).reduceOption.map announce }

def parseAddOrder (data : List UInt8) (len : ℕ) : FeedRun → FeedRun :=
  parse 35 FeedHandler.mOnAddOrder (fun cb => .addOrder cb (addedOrder data)) len

def parseOrderCancel (data : List UInt8) (len : ℕ) : FeedRun → FeedRun :=
  parse 23 FeedHandler.mOnCancelOrder (fun cb => .cancelOrder cb (readUInt64 data 11)) len

def parseOrderReplace (data : List UInt8) (len : ℕ) : FeedRun → FeedRun :=
  parse 35 FeedHandler.mOnModifyOrder
    (fun cb => .modifyOrder cb (readUInt64 data 11) (readUInt32 data 27)
      (parsePrice data 31).toInt64) len

def parseOrderExecuted (data : List UInt8) (len : ℕ) : FeedRun → FeedRun :=
  parse 27 FeedHandler.mOnTrade
    (fun cb => .trade cb (readUInt64 data 11) (readUInt32 data 19) 0) len

/-- The switch on the type of a message: `A` and `F`, `X`, `U`, `E` and `C`, any other. -/
def dispatch (msgType : UInt8) (data : List UInt8) (len : ℕ) (s : FeedRun) : FeedRun :=
  if msgType = 65 ∨ msgType = 70 then s.parseAddOrder data len
  else if msgType = 88 then s.parseOrderCancel data len
  else if msgType = 85 then s.parseOrderReplace data len
  else if msgType = 69 ∨ msgType = 67 then s.parseOrderExecuted data len
  else s

end FeedRun

/-- The loop of `process`: the memory from `ptr` on, and the bytes between `ptr` and `end`. -/
structure FeedLoop where
  run : FeedRun
  ptr : List UInt8
  left : ℕ

def messageLength (data : List UInt8) : UInt16 :=
  (byteAt data 0).toUInt16 <<< 8 ||| (byteAt data 1).toUInt16

/-- A length of 2 passes the check, and then the type is the byte behind the message; there is no
result when that byte is not in memory. -/
def processBody (s : FeedLoop) : Option (FeedLoop ⊕ FeedLoop) :=
  if s.left < 2 then some (.inl s) else
  let msgLen := messageLength s.ptr
  if msgLen < 2 ∨ s.left < msgLen.toNat then some (.inl { s with run := s.run.error }) else
  s.ptr[2]?.map fun msgType => .inr {
    run := s.run.dispatch msgType s.ptr msgLen.toNat
    ptr := s.ptr.drop msgLen.toNat
    left := s.left - msgLen.toNat }

namespace FeedHandler

/-- `data` is the memory from the pointer on, which may go on behind `len`; `none` is a null pointer.
Every message takes two bytes or more, so the length bounds the turns. -/
def process (data : Option (List UInt8)) (len : ℕ) (s : FeedRun) : Option FeedRun :=
  match data with
  | none => some s
  | some bytes =>
    if len = 0 then some s
    else (Loop.run processBody (len + 1) ⟨s, bytes, len⟩).map FeedLoop.run

/-- `none` is a file that cannot be opened. -/
def processFile (file : Option (List UInt8)) (s : FeedRun) : Option FeedRun :=
  match file with
  | none => some s
  | some bytes => process (some bytes) bytes.length s

end FeedHandler

end Velox
