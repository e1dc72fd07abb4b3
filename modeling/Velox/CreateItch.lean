import Velox.FeedFraming

namespace Velox
set_option autoImplicit true

/-- The eight shifts of a 64-bit number, masked to bytes. -/
def putUInt64 (n : UInt64) : List UInt8 :=
  (List.range 8).map fun i => ((n >>> UInt64.ofNat (56 - i * 8)) &&& 0xFF).toUInt8

def putUInt32 (n : UInt32) : List UInt8 :=
  [((n >>> 24) &&& 0xFF).toUInt8, ((n >>> 16) &&& 0xFF).toUInt8, ((n >>> 8) &&& 0xFF).toUInt8,
    (n &&& 0xFF).toUInt8]

def writtenTimestamp : List UInt8 := [0x00, 0x00, 0x00, 0x00, 0x0B, 0x8B, 0x8B, 0x00]

/-- At most six characters, up to the end of the string; the rest of the field stays zero. -/
def putSymbol (symbol : List UInt8) : List UInt8 :=
  let chars := (symbol.takeWhile (· ≠ 0)).take 6
  chars ++ List.replicate (6 - chars.length) 0

/-- The 35 bytes that `write_add_order` appends to the file. -/
def writeAddOrder (orderId : UInt64) (symbol : List UInt8) (side : UInt8) (price : Int64)
    (quantity : UInt32) : List UInt8 :=
  [0x00, 0x23, 65] ++ (writtenTimestamp ++ (putUInt64 orderId ++ (putSymbol symbol ++ ([side] ++
    (putUInt32 price.toUInt64.toUInt32 ++ (putUInt32 quantity ++ [0]))))))

/-- The 23 bytes that `write_cancel_order` appends to the file. -/
def writeCancelOrder (orderId : UInt64) : List UInt8 :=
  [0x00, 0x17, 88] ++ (writtenTimestamp ++ (putUInt64 orderId ++ [0x00, 0x00, 0x00, 0x64]))

variable {pre bs post data : List UInt8} {offset : ℕ}

theorem toNat_readUInt64 (data : List UInt8) (offset : ℕ) :
    (readUInt64 data offset).toNat = BigEndian.value (bytesAt data offset 8) := by
  refine BigEndian.foldl_value (k := 7) rfl (fun w b hw => ?_) (by simp [bytesAt])
  rw [UInt64.toNat_or, UInt64.toNat_shiftLeft, UInt8.toNat_toUInt64,
    show (8 : UInt64).toNat % 64 = 8 from rfl,
    Nat.mod_eq_of_lt (by rw [Nat.shiftLeft_eq]; omega), BigEndian.shift_or]

theorem toNat_readUInt32 (data : List UInt8) (offset : ℕ) :
    (readUInt32 data offset).toNat = BigEndian.value (bytesAt data offset 4) := by
  refine BigEndian.foldl_value (k := 3) rfl (fun w b hw => ?_) (by simp [bytesAt])
  rw [UInt32.toNat_or, UInt32.toNat_shiftLeft, UInt8.toNat_toUInt32,
    show (8 : UInt32).toNat % 32 = 8 from rfl,
    Nat.mod_eq_of_lt (by rw [Nat.shiftLeft_eq]; omega), BigEndian.shift_or]

theorem masked_byte (n : ℕ) : (n &&& 255) % 256 = n % 256 := by
  rw [show (255 : ℕ) = 2 ^ 8 - 1 from rfl, Nat.and_two_pow_sub_one_eq_mod]
  exact Nat.mod_mod _ _

theorem putUInt64_eq (n : UInt64) : putUInt64 n = BigEndian.bytes 8 n.toNat := by
  rw [putUInt64, BigEndian.bytes_eq_map]
  refine List.map_congr_left fun i hi => UInt8.toNat.inj ?_
  have hlt := List.mem_range.1 hi
  rw [UInt64.toNat_toUInt8, UInt64.toNat_and, UInt64.toNat_shiftRight, UInt64.toNat_ofNat',
    show (0xFF : UInt64).toNat = 255 from rfl, UInt8.toNat_ofNat', masked_byte]
  congr 2
  omega

theorem putUInt32_eq (n : UInt32) : putUInt32 n = BigEndian.bytes 4 n.toNat := by
  have hbyte : ∀ k : UInt32, ((n >>> k) &&& 0xFF).toUInt8 =
      UInt8.ofNat (n.toNat >>> (k.toNat % 32)) := fun k => UInt8.toNat.inj (by
    rw [UInt32.toNat_toUInt8, UInt32.toNat_and, UInt32.toNat_shiftRight,
      show (0xFF : UInt32).toNat = 255 from rfl, UInt8.toNat_ofNat', masked_byte])
  have hlast := hbyte 0
  rw [UInt32.shiftRight_zero] at hlast
  rw [putUInt32, BigEndian.bytes_eq_map, hbyte, hbyte, hbyte, hlast]
  rfl

theorem bytesAt_field (hoffset : offset = pre.length) (hcount : count = bs.length) :
    bytesAt (pre ++ (bs ++ post)) offset count = bs := by
  subst hoffset hcount
  refine List.ext_getElem (by simp [bytesAt]) fun i h₁ h₂ => ?_
  simp only [bytesAt, List.getElem_map, List.getElem_range, byteAt]
  rw [List.getD_append_right _ _ _ _ (by omega), Nat.add_sub_cancel_left,
    List.getD_append _ _ _ _ h₂, List.getD_eq_getElem _ _ h₂]

theorem readUInt64_field (n : UInt64) (h : bytesAt data offset 8 = putUInt64 n) :
    readUInt64 data offset = n := by
  refine UInt64.toNat.inj ?_
  rw [toNat_readUInt64, h, putUInt64_eq, BigEndian.value_bytes]
  exact n.toNat_lt

theorem readUInt32_field (n : UInt32) (h : bytesAt data offset 4 = putUInt32 n) :
    readUInt32 data offset = n := by
  refine UInt32.toNat.inj ?_
  rw [toNat_readUInt32, h, putUInt32_eq, BigEndian.value_bytes]
  exact n.toNat_lt

/-- A message that the writer is asked for: an order with a name of at most six characters, none of
them zero, that does not end in a space, and a price of 32 bits. -/
structure WrittenOrder where
  orderId : UInt64
  symbol : List UInt8
  side : OrderSide
  price : Int64
  quantity : UInt32
  short : symbol.length ≤ 6
  nonzero : ∀ b ∈ symbol, b ≠ 0
  trimmed : symbol.getLast? ≠ some 32
  priced : 0 ≤ price.toInt ∧ price.toInt < 2 ^ 32

inductive ItchMessage
  | add (m : WrittenOrder)
  | cancel (orderId : UInt64)

def OrderSide.letter : OrderSide → UInt8
  | .BUY => 66
  | .SELL => 83

namespace WrittenOrder

variable (m : WrittenOrder)

def encode : List UInt8 := writeAddOrder m.orderId m.symbol m.side.letter m.price m.quantity

def order : Order where
  orderId := m.orderId
  symbol := .ofChars m.symbol
  side := m.side
  price := m.price
  quantity := m.quantity
  remainingQuantity := m.quantity
  receivedTimestamp := 0x0B8B8B00

theorem putSymbol_eq : putSymbol m.symbol = m.symbol ++ List.replicate (6 - m.symbol.length) 0 := by
  have hwhole : m.symbol.takeWhile (· ≠ 0) = m.symbol :=
    List.takeWhile_eq_self_iff.2 fun b hb => decide_eq_true (m.nonzero b hb)
  rw [putSymbol, hwhole, List.take_of_length_le m.short]

theorem length_putSymbol : (putSymbol m.symbol).length = 6 := by
  have hshort := m.short
  rw [putSymbol_eq, List.length_append, List.length_replicate]
  omega

/-- Neither the zeros behind the name nor its own end are taken for padding. -/
theorem rdropWhile_putSymbol :
    (putSymbol m.symbol).rdropWhile (· == 32) = putSymbol m.symbol := by
  rw [List.rdropWhile_eq_self_iff]
  intro hne hlast
  have hlast' : (putSymbol m.symbol).getLast? = some 32 := by
    rw [List.getLast?_eq_some_getLast hne, eq_of_beq hlast]
  rw [putSymbol_eq] at hlast'
  cases hfill : 6 - m.symbol.length with
  | zero =>
    rw [hfill, List.replicate_zero, List.append_nil] at hlast'
    exact m.trimmed hlast'
  | succ n =>
    rw [hfill, List.replicate_succ', ← List.append_assoc, List.getLast?_concat] at hlast'
    exact absurd (Option.some.inj hlast') (by decide)

theorem ofChars_putSymbol : Symbol.ofChars (putSymbol m.symbol) = .ofChars m.symbol := by
  refine Vector.ext fun i hi => ?_
  simp only [Symbol.ofChars, Vector.getElem_ofFn]
  rw [putSymbol_eq]
  by_cases hlt : i < m.symbol.length
  · rw [List.getD_append _ _ _ _ hlt]
  · rw [List.getD_append_right _ _ _ _ (by omega), List.getD_eq_getElem?_getD,
      List.getElem?_getD_replicate_default_eq, List.getD_eq_default _ _ (by omega)]

theorem parseSymbol_eq (h : bytesAt data offset 6 = putSymbol m.symbol) :
    parseSymbol data offset = .ofChars m.symbol := by
  have hcopy : copySymbol data offset = putSymbol m.symbol := by
    rw [copySymbol, h]
    simp only [m.putSymbol_eq, takeWhile_padded m.nonzero]
  rw [parseSymbol, hcopy, rdropWhile_putSymbol, ofChars_putSymbol]

theorem toInt64_price : m.price.toUInt64.toUInt32.toUInt64.toInt64 = m.price := by
  obtain ⟨hpos, hlt⟩ := m.priced
  have hnat : m.price.toUInt64.toNat = m.price.toInt.toNat :=
    Int64.toNat_toUInt64_of_le (Int64.le_iff_toInt_le.2 hpos)
  have hcast : m.price.toUInt64.toUInt32.toUInt64 = m.price.toUInt64 := by
    refine UInt64.toNat.inj ?_
    rw [UInt32.toNat_toUInt64, UInt64.toNat_toUInt32, Nat.mod_eq_of_lt (by omega)]
  rw [hcast]
  exact Int64.toInt64_toUInt64 _

/-- The parser reads every field where the writer puts it. -/
theorem addedOrder_encode : addedOrder m.encode = m.order := by
  have hsymbol := m.length_putSymbol
  have htime : bytesAt m.encode 3 8 = writtenTimestamp := bytesAt_field rfl rfl
  have hid : bytesAt m.encode 11 8 = putUInt64 m.orderId := by
    rw [encode, writeAddOrder, ← List.append_assoc]
    exact bytesAt_field rfl rfl
  have hname : bytesAt m.encode 19 6 = putSymbol m.symbol := by
    rw [encode, writeAddOrder, ← List.append_assoc, ← List.append_assoc]
    exact bytesAt_field rfl hsymbol.symm
  have hside : bytesAt m.encode 25 1 = [m.side.letter] := by
    rw [encode, writeAddOrder, ← List.append_assoc, ← List.append_assoc, ← List.append_assoc]
    exact bytesAt_field (by rw [List.length_append, hsymbol]; rfl) rfl
  have hprice : bytesAt m.encode 26 4 = putUInt32 m.price.toUInt64.toUInt32 := by
    rw [encode, writeAddOrder, ← List.append_assoc, ← List.append_assoc, ← List.append_assoc,
      ← List.append_assoc]
    exact bytesAt_field (by rw [List.length_append, List.length_append, hsymbol]; rfl) rfl
  have hquantity : bytesAt m.encode 30 4 = putUInt32 m.quantity := by
    rw [encode, writeAddOrder, ← List.append_assoc, ← List.append_assoc, ← List.append_assoc,
      ← List.append_assoc, ← List.append_assoc]
    exact bytesAt_field
      (by rw [List.length_append, List.length_append, List.length_append, hsymbol]; rfl) rfl
  have hletter : byteAt m.encode 25 = m.side.letter := List.singleton_inj.1 hside
  have hbuy : (if byteAt m.encode 25 = 66 then OrderSide.BUY else .SELL) = m.side := by
    rw [hletter]
    cases m.side <;> rfl
  have hstamp : parseTimestamp m.encode 3 = 0x0B8B8B00 := by
    rw [parseTimestamp, readUInt64, htime]
    rfl
  simp only [addedOrder, readUInt64_field _ hid, m.parseSymbol_eq hname, hbuy, parsePrice,
    readUInt32_field _ hprice, m.toInt64_price, readUInt32_field _ hquantity, hstamp]
  rfl

theorem length_encode : m.encode.length = 35 := by
  rw [encode, writeAddOrder]
  simp only [List.length_append, m.length_putSymbol]
  rfl

end WrittenOrder

namespace ItchMessage

def encode : ItchMessage → List UInt8
  | .add m => m.encode
  | .cancel orderId => writeCancelOrder orderId

/-- The calls that a message is for: one of each callback of its kind. -/
def invocations (h : FeedHandler) : ItchMessage → List Invocation
  | .add m => h.mOnAddOrder.reduceOption.map (Invocation.addOrder · m.order)
  | .cancel orderId => h.mOnCancelOrder.reduceOption.map (Invocation.cancelOrder · orderId)

theorem length_writeCancelOrder (orderId : UInt64) : (writeCancelOrder orderId).length = 23 := rfl

def frame : ItchMessage → Frame
  | .add m => {
    bytes := m.encode
    long := by rw [m.length_encode]; decide
    headed := by rw [m.length_encode]; rfl }
  | .cancel orderId => {
    bytes := writeCancelOrder orderId
    long := by rw [length_writeCancelOrder]; decide
    headed := rfl }

theorem bytes_frame (m : ItchMessage) : m.frame.bytes = m.encode := by
  cases m <;> rfl

theorem message_frame (m : ItchMessage) (s : FeedRun) : s.message m.frame = {
    handler := { s.handler with mMessageCount := s.handler.mMessageCount + 1 }
    calls := s.calls ++ m.invocations s.handler } := by
  cases m with
  | add m =>
    change s.dispatch 65 m.encode m.encode.length = _
    rw [FeedRun.dispatch, if_pos (.inl rfl), FeedRun.parseAddOrder, FeedRun.parse, m.length_encode,
      if_neg (by decide), m.addedOrder_encode]
    rfl
  | cancel orderId =>
    have hid : bytesAt (writeCancelOrder orderId) 11 8 = putUInt64 orderId := by
      rw [writeCancelOrder, ← List.append_assoc]
      exact bytesAt_field rfl rfl
    change s.dispatch 88 (writeCancelOrder orderId) 23 = _
    rw [FeedRun.dispatch, if_neg (by decide), if_pos rfl, FeedRun.parseOrderCancel, FeedRun.parse,
      if_neg (by decide), readUInt64_field _ hid]
    rfl

theorem foldl_message (ms : List ItchMessage) (s : FeedRun) :
    (ms.map frame).foldl (fun s f => s.message f) s = {
      handler := { s.handler with
        mMessageCount := s.handler.mMessageCount + UInt64.ofNat ms.length }
      calls := s.calls ++ ms.flatMap (invocations s.handler) } := by
  induction ms generalizing s with
  | nil =>
    rw [List.map_nil, List.foldl_nil, List.flatMap_nil, List.append_nil, List.length_nil]
    show s = _
    rw [show UInt64.ofNat 0 = 0 from rfl, UInt64.add_zero]
  | cons m ms ih =>
    rw [List.map_cons, List.foldl_cons, ih, message_frame, List.flatMap_cons, List.length_cons,
      UInt64.ofNat_add, UInt64.add_comm (UInt64.ofNat ms.length)]
    simp only [List.append_assoc, UInt64.add_assoc]
    rfl

/-- Processing what the writer wrote makes the calls that the messages are for, in order, counts the
messages and no error; the name of an order is read back as it was given. -/
theorem parser_inverts_writer (ms : List ItchMessage) (s : FeedRun) :
    FeedHandler.process (some (ms.flatMap encode)) (ms.flatMap encode).length s = some {
      handler := { s.handler with
        mMessageCount := s.handler.mMessageCount + UInt64.ofNat ms.length }
      calls := s.calls ++ ms.flatMap (invocations s.handler) } ∧
    ∀ m : WrittenOrder, m.order.symbol.cstr = m.symbol := by
  have hbytes : ms.flatMap encode = (ms.map frame).flatMap Frame.bytes := by
    rw [List.flatMap_map]
    exact List.flatMap_congr fun m _ => (bytes_frame m).symm
  have hdrain := drain_frames (ms.map frame) [] 0 s
  rw [List.append_nil, ← hbytes, Nat.add_zero] at hdrain
  refine ⟨?_, fun m => Symbol.cstr_ofChars (m.short.trans (by decide)) m.nonzero⟩
  rw [process_eq_drain, hdrain, foldl_message]
  exact drain_leave (t := ⟨_, [], 0⟩) rfl

end ItchMessage

end Velox
