import Velox.FeedFraming

namespace Velox
set_option autoImplicit true

/-! The feed handler with every read looked up in the buffer. -/

namespace Checked

def bytesAt (data : List UInt8) (offset count : ℕ) : Option (List UInt8) :=
  (List.range count).mapM fun i => data[offset + i]?

def readUInt64 (data : List UInt8) (offset : ℕ) : Option UInt64 :=
  (bytesAt data offset 8).map fun bs => bs.foldl (fun n b => n <<< 8 ||| b.toUInt64) 0

def readUInt32 (data : List UInt8) (offset : ℕ) : Option UInt32 :=
  (bytesAt data offset 4).map fun bs => bs.foldl (fun n b => n <<< 8 ||| b.toUInt32) 0

/-- The characters that `strncpy` reads: none behind the first zero. -/
def copyChars (data : List UInt8) (offset : ℕ) : ℕ → Option (List UInt8)
  | 0 => some []
  | n + 1 => data[offset]?.bind fun b =>
    if b = 0 then some [] else (copyChars data (offset + 1) n).map (b :: ·)

def parseSymbol (data : List UInt8) (offset : ℕ) : Option Symbol :=
  (copyChars data offset 6).map fun chars =>
    .ofChars ((chars ++ List.replicate (6 - chars.length) 0).rdropWhile (· == 32))

def addedOrder (data : List UInt8) : Option Order := do
  let orderId ← readUInt64 data 11
  let symbol ← parseSymbol data 19
  let sideChar : UInt8 ← data[25]?
  let price ← readUInt32 data 26
  let quantity ← readUInt32 data 30
  let receivedTimestamp ← readUInt64 data 3
  return {
    orderId, symbol
    side := if sideChar = 66 then .BUY else .SELL
    price := price.toUInt64.toInt64
    quantity
    remainingQuantity := quantity
    receivedTimestamp
    type := .LIMIT
    status := .NEW }

/-- A parser reads the fields of a message that is long enough, and only then. -/
def parse (minimum : ℕ) (callbacks : FeedHandler → Callbacks)
    (announce : Option (CallbackId → Invocation)) (len : ℕ) (s : FeedRun) : Option FeedRun :=
  if len < minimum then some s.error
  else announce.map fun announce => {
    handler := { s.handler with mMessageCount := s.handler.mMessageCount + 1 }
    calls := s.calls ++ (callbacks s.handler).reduceOption.map announce }

def parseAddOrder (data : List UInt8) (len : ℕ) : FeedRun → Option FeedRun :=
  parse 35 FeedHandler.mOnAddOrder ((addedOrder data).map fun o cb => .addOrder cb o) len

def parseOrderCancel (data : List UInt8) (len : ℕ) : FeedRun → Option FeedRun :=
  parse 23 FeedHandler.mOnCancelOrder
    ((readUInt64 data 11).map fun orderId cb => .cancelOrder cb orderId) len

def parseOrderReplace (data : List UInt8) (len : ℕ) : FeedRun → Option FeedRun :=
  parse 35 FeedHandler.mOnModifyOrder (do
    let orderId ← readUInt64 data 11
    let newQuantity ← readUInt32 data 27
    let newPrice ← readUInt32 data 31
    return fun cb => .modifyOrder cb orderId newQuantity newPrice.toUInt64.toInt64) len

def parseOrderExecuted (data : List UInt8) (len : ℕ) : FeedRun → Option FeedRun :=
  parse 27 FeedHandler.mOnTrade (do
    let orderId ← readUInt64 data 11
    let executedQuantity ← readUInt32 data 19
    return fun cb => .trade cb orderId executedQuantity 0) len

def dispatch (msgType : UInt8) (data : List UInt8) (len : ℕ) (s : FeedRun) : Option FeedRun :=
  if msgType = 65 ∨ msgType = 70 then parseAddOrder data len s
  else if msgType = 88 then parseOrderCancel data len s
  else if msgType = 85 then parseOrderReplace data len s
  else if msgType = 69 ∨ msgType = 67 then parseOrderExecuted data len s
  else some s

def processBody (s : FeedLoop) : Option (FeedLoop ⊕ FeedLoop) :=
  if s.left < 2 then some (.inl s) else
  s.ptr[0]?.bind fun high => s.ptr[1]?.bind fun low =>
  let msgLen := high.toUInt16 <<< 8 ||| low.toUInt16
  if msgLen < 2 ∨ s.left < msgLen.toNat then some (.inl { s with run := s.run.error }) else
  s.ptr[2]?.bind fun msgType => (dispatch msgType s.ptr msgLen.toNat s.run).map fun run => .inr {
    run
    ptr := s.ptr.drop msgLen.toNat
    left := s.left - msgLen.toNat }

/-- `process` on a buffer; there is no result when a read lies outside it. -/
def process (bytes : List UInt8) (s : FeedRun) : Option FeedRun :=
  if bytes.length = 0 then some s
  else (Loop.run processBody (bytes.length + 1) ⟨s, bytes, bytes.length⟩).map FeedLoop.run

section Reads
variable {data : List UInt8} {offset count len : ℕ} {s : FeedRun}

theorem mapM_some {f : α → Option β} {g : α → β} {xs : List α} (h : ∀ x ∈ xs, f x = some (g x)) :
    xs.mapM f = some (xs.map g) := by
  induction xs with
  | nil => rfl
  | cons x xs ih =>
    rw [List.mapM_cons, h x (.head _), ih fun y hy => h y (.tail _ hy)]
    rfl

theorem getElem?_byteAt {i : ℕ} (h : i < data.length) : data[i]? = some (byteAt data i) := by
  rw [byteAt, List.getD_eq_getElem _ _ h, List.getElem?_eq_getElem h]

theorem bytesAt_eq (h : offset + count ≤ data.length) :
    bytesAt data offset count = some (Velox.bytesAt data offset count) :=
  mapM_some fun i hi => getElem?_byteAt (by have hlt := List.mem_range.1 hi; omega)

theorem readUInt64_eq (h : offset + 8 ≤ data.length) :
    readUInt64 data offset = some (Velox.readUInt64 data offset) := by
  rw [readUInt64, bytesAt_eq h]
  rfl

theorem readUInt32_eq (h : offset + 4 ≤ data.length) :
    readUInt32 data offset = some (Velox.readUInt32 data offset) := by
  rw [readUInt32, bytesAt_eq h]
  rfl

theorem copyChars_eq (h : offset + count ≤ data.length) :
    copyChars data offset count = some ((Velox.bytesAt data offset count).takeWhile (· ≠ 0)) := by
  induction count generalizing offset with
  | zero => rfl
  | succ n ih =>
    have hsplit : Velox.bytesAt data offset (n + 1) =
        byteAt data offset :: Velox.bytesAt data (offset + 1) n := by
      rw [Velox.bytesAt, List.range_succ_eq_map, List.map_cons, List.map_map, Velox.bytesAt]
      congr 1
      apply List.map_congr_left
      intro i _
      rw [Function.comp_apply, Nat.add_right_comm, Nat.add_assoc]
    rw [copyChars, getElem?_byteAt (by omega), Option.bind_some, hsplit]
    by_cases hb : byteAt data offset = 0
    · rw [if_pos hb, List.takeWhile_cons_of_neg (by simp [hb])]
    · rw [if_neg hb, List.takeWhile_cons_of_pos (by simp [hb]), ih (by omega)]
      rfl

theorem addedOrder_eq (h : 35 ≤ data.length) :
    addedOrder data = some (Velox.addedOrder data) := by
  rw [addedOrder, readUInt64_eq (by omega), parseSymbol, copyChars_eq (by omega),
    getElem?_byteAt (by omega), readUInt32_eq (by omega), readUInt32_eq (by omega),
    readUInt64_eq (by omega)]
  rfl

theorem parse_eq {minimum : ℕ} {callbacks : FeedHandler → Callbacks}
    {announce : Option (CallbackId → Invocation)} {announce' : CallbackId → Invocation}
    (h : minimum ≤ len → announce = some announce') (s : FeedRun) :
    parse minimum callbacks announce len s = some (s.parse minimum callbacks announce' len) := by
  rw [parse, FeedRun.parse]
  split
  · rfl
  · rw [h (by omega)]
    rfl

theorem dispatch_eq (h : len ≤ data.length) (msgType : UInt8) (s : FeedRun) :
    dispatch msgType data len s = some (s.dispatch msgType data len) := by
  have hadd : parseAddOrder data len s = some (s.parseAddOrder data len) :=
    parse_eq (fun hlen => by rw [addedOrder_eq (by omega)]; rfl) s
  have hcancel : parseOrderCancel data len s = some (s.parseOrderCancel data len) :=
    parse_eq (fun hlen => by rw [readUInt64_eq (by omega)]; rfl) s
  have hreplace : parseOrderReplace data len s = some (s.parseOrderReplace data len) :=
    parse_eq (fun hlen => by
      rw [readUInt64_eq (by omega), readUInt32_eq (by omega), readUInt32_eq (by omega)]; rfl) s
  have hexecuted : parseOrderExecuted data len s = some (s.parseOrderExecuted data len) :=
    parse_eq (fun hlen => by rw [readUInt64_eq (by omega), readUInt32_eq (by omega)]; rfl) s
  rw [dispatch, FeedRun.dispatch, hadd, hcancel, hreplace, hexecuted]
  split
  · rfl
  · split
    · rfl
    · split
      · rfl
      · split
        · rfl
        · rfl

theorem processBody_eq (u : FeedLoop) (h : u.left = u.ptr.length) :
    processBody u = Velox.processBody u := by
  rw [processBody, Velox.processBody]
  split
  · rfl
  · rename_i hleft
    rw [getElem?_byteAt (by omega), getElem?_byteAt (by omega), Option.bind_some, Option.bind_some]
    have hlen : (byteAt u.ptr 0).toUInt16 <<< 8 ||| (byteAt u.ptr 1).toUInt16 =
        messageLength u.ptr := rfl
    dsimp only
    rw [hlen]
    by_cases hbad : messageLength u.ptr < 2 ∨ u.left < (messageLength u.ptr).toNat
    · rw [if_pos hbad, if_pos hbad]
    · have hfits : (messageLength u.ptr).toNat ≤ u.ptr.length := by omega
      rw [if_neg hbad, if_neg hbad]
      cases u.ptr[2]? with
      | none => rfl
      | some msgType =>
        rw [Option.bind_some, dispatch_eq hfits]
        rfl

theorem processBody_whole (u : FeedLoop) (r : FeedLoop ⊕ FeedLoop) (h : u.left = u.ptr.length)
    (hr : Velox.processBody u = some r) :
    Sum.elim (fun v => v.left = v.ptr.length) (fun v => v.left = v.ptr.length) r := by
  simp only [Velox.processBody] at hr
  split at hr
  · obtain rfl := Option.some.inj hr
    exact h
  · split at hr
    · obtain rfl := Option.some.inj hr
      exact h
    · obtain ⟨msgType, -, rfl⟩ := Option.map_eq_some_iff.1 hr
      change u.left - _ = (u.ptr.drop _).length
      rw [List.length_drop, h]

/-- With its reads looked up, the handler does what it does, as long as none lies outside. -/
theorem process_eq (bytes : List UInt8) (s : FeedRun) :
    process bytes s = FeedHandler.process (some bytes) bytes.length s := by
  rw [process, FeedHandler.process]
  split
  · rfl
  · rw [Loop.run_congr processBody_whole processBody_eq rfl]

end Reads

end Checked

/-- A byte string of two bytes or more that begins with its own length. -/
structure Headed (c : List UInt8) : Prop where
  long : 2 ≤ c.length
  headed : BigEndian.value (c.take 2) = c.length

/-- Buffers that end in a bare length of two, behind byte strings that begin with their own
lengths. -/
def BareEnd (bytes : List UInt8) : Prop :=
  ∃ chunks : List (List UInt8), (∀ c ∈ chunks, Headed c) ∧ bytes = chunks.flatten ++ [0, 2]

section Buffers
variable {c c' rest rest' bytes : List UInt8} {s : FeedRun}

theorem Headed.messageLength_append (h : Headed c) (rest : List UInt8) :
    (messageLength (c ++ rest)).toNat = c.length :=
  messageLength_of_headed h.long h.headed rest

theorem Headed.append_inj (h : Headed c) (h' : Headed c') (heq : c ++ rest = c' ++ rest') :
    c = c' ∧ rest = rest' := by
  have hlen := h.messageLength_append rest
  rw [heq, h'.messageLength_append] at hlen
  exact List.append_inj heq hlen.symm

/-- The length that a buffer begins with cannot be one of a message in it. -/
def BadLength (bytes : List UInt8) : Prop :=
  (messageLength bytes).toNat < 2 ∨ bytes.length < (messageLength bytes).toNat

theorem Headed.not_badLength (h : Headed c) (rest : List UInt8) : ¬ BadLength (c ++ rest) := by
  have hlong := h.long
  rw [BadLength, h.messageLength_append, List.length_append]
  omega

theorem buffer_cases (bytes : List UInt8) :
    bytes.length < 2 ∨ 2 ≤ bytes.length ∧ BadLength bytes ∨ bytes = [0, 2] ∨
      ∃ c rest, Headed c ∧ bytes = c ++ rest ∧ 3 ≤ bytes.length := by
  by_cases hshort : bytes.length < 2
  · exact .inl hshort
  have htwo := Nat.le_of_not_lt hshort
  by_cases hbad : BadLength bytes
  · exact .inr (.inl ⟨htwo, hbad⟩)
  obtain ⟨hmin, hmax⟩ := not_or.1 hbad
  by_cases hthree : 3 ≤ bytes.length
  · refine .inr (.inr (.inr ⟨_, _, ⟨?_, ?_⟩, (List.take_append_drop
      (messageLength bytes).toNat bytes).symm, hthree⟩))
    · rw [List.length_take]
      omega
    · rw [List.take_take, Nat.min_eq_left (by omega), value_take_two htwo, List.length_take]
      omega
  · obtain ⟨a, b, rfl⟩ := List.length_eq_two.1 (by omega : bytes.length = 2)
    rw [toNat_messageLength] at hmin hmax
    change ¬ 256 * a.toNat + b.toNat < 2 at hmin
    change ¬ 2 < 256 * a.toNat + b.toNat at hmax
    have ha : a = 0 := UInt8.toNat.inj (by show a.toNat = 0; omega)
    have hb : b = 2 := UInt8.toNat.inj (by show b.toNat = 2; omega)
    rw [ha, hb]
    exact .inr (.inr (.inl rfl))

/-- A buffer worked off to its end. -/
def feed (bytes : List UInt8) (s : FeedRun) : Option FeedRun := drain ⟨s, bytes, bytes.length⟩

theorem feed_short (h : bytes.length < 2) (s : FeedRun) : feed bytes s = some s :=
  drain_leave (t := ⟨s, bytes, bytes.length⟩) (by simp only [processBody]; rw [if_pos h])

theorem feed_badLength (h : 2 ≤ bytes.length) (hbad : BadLength bytes) (s : FeedRun) :
    feed bytes s = some s.error := by
  refine drain_leave (t := ⟨s.error, bytes, bytes.length⟩) ?_
  have hstop : messageLength bytes < 2 ∨ bytes.length < (messageLength bytes).toNat := by
    rwa [UInt16.lt_iff_toNat_lt]
  simp only [processBody]
  rw [if_neg (Nat.not_lt.2 h), if_pos hstop]

theorem feed_bare (s : FeedRun) : feed [0, 2] s = none := by
  have hlen : messageLength [0, 2] = 2 := by decide
  have hbody : processBody ⟨s, [0, 2], 2⟩ = none := by
    simp only [processBody, hlen]
    rfl
  have hrun : Loop.run processBody 3 ⟨s, [0, 2], 2⟩ = none := by rw [Loop.run, hbody]
  exact congrArg (Option.map FeedLoop.run) hrun

/-- The type byte is the third byte of the buffer, which need not be one of the message. -/
theorem feed_chunk (h : Headed c) (hthree : 3 ≤ (c ++ rest).length) (s : FeedRun) :
    feed (c ++ rest) s =
      feed rest (s.dispatch (byteAt (c ++ rest) 2) (c ++ rest) c.length) := by
  have hlong := h.long
  have hlen := h.messageLength_append rest
  have hgood : ¬ (messageLength (c ++ rest) < 2 ∨
      (c ++ rest).length < (messageLength (c ++ rest)).toNat) := by
    rw [UInt16.lt_iff_toNat_lt]
    exact h.not_badLength rest
  have hleft : (c ++ rest).length - c.length = rest.length := by
    rw [List.length_append]
    omega
  refine drain_again ?_
  simp only [processBody]
  rw [if_neg (by omega), if_neg hgood, Checked.getElem?_byteAt hthree, Option.map_some, hlen,
    List.drop_left, hleft]

theorem not_bareEnd_of_short (h : bytes.length < 2) : ¬ BareEnd bytes := by
  rintro ⟨chunks, -, rfl⟩
  rw [List.length_append] at h
  exact absurd h (by simp)

theorem headed_bare : Headed [0, 2] := ⟨by decide, by decide⟩

theorem BareEnd.not_badLength (h : BareEnd bytes) : ¬ BadLength bytes := by
  obtain ⟨chunks, hchunks, rfl⟩ := h
  cases chunks with
  | nil => exact headed_bare.not_badLength []
  | cons c chunks =>
    rw [List.flatten_cons, List.append_assoc]
    exact (hchunks c (.head _)).not_badLength _

theorem bareEnd_append_iff (h : Headed c) (hthree : 3 ≤ (c ++ rest).length) :
    BareEnd (c ++ rest) ↔ BareEnd rest := by
  constructor
  · rintro ⟨chunks, hchunks, heq⟩
    cases chunks with
    | nil =>
      rw [heq] at hthree
      exact absurd hthree (by decide)
    | cons c' chunks =>
      rw [List.flatten_cons, List.append_assoc] at heq
      obtain ⟨-, hrest⟩ := h.append_inj (hchunks c' (.head _)) heq
      exact ⟨chunks, fun d hd => hchunks d (.tail _ hd), hrest⟩
  · rintro ⟨chunks, hchunks, rfl⟩
    refine ⟨c :: chunks, fun d hd => ?_, by rw [List.flatten_cons, List.append_assoc]⟩
    rcases List.mem_cons.1 hd with rfl | hd
    · exact h
    · exact hchunks d hd

theorem feed_eq_none_iff (bytes : List UInt8) (s : FeedRun) : feed bytes s = none ↔ BareEnd bytes := by
  induction hn : bytes.length using Nat.strong_induction_on generalizing bytes s with
  | _ n ih =>
    rcases buffer_cases bytes with hshort | ⟨htwo, hbad⟩ | rfl | ⟨c, rest, hc, rfl, hthree⟩
    · rw [feed_short hshort]
      exact iff_of_false (Option.some_ne_none _) (not_bareEnd_of_short hshort)
    · rw [feed_badLength htwo hbad]
      exact iff_of_false (Option.some_ne_none _) fun h => h.not_badLength hbad
    · exact iff_of_true (feed_bare s) ⟨[], fun _ h => by (cases h), rfl⟩
    · have hlong := hc.long
      rw [feed_chunk hc hthree, bareEnd_append_iff hc hthree]
      rw [List.length_append] at hn
      exact ih rest.length (by omega) rest _ rfl

/-- Every read lies in the buffer, unless the buffer ends in a bare length of two: the type of that
message is looked for behind the end. -/
theorem reads_inside_iff (bytes : List UInt8) (s : FeedRun) :
    (Checked.process bytes s).isSome = true ↔ ¬ BareEnd bytes := by
  rw [Checked.process_eq, process_eq_drain, ← feed_eq_none_iff bytes s, Option.isSome_iff_ne_none]
  rfl

theorem bare_length_read_outside : ¬ ∀ (bytes : List UInt8) (s : FeedRun),
    (Checked.process bytes s).isSome = true := by
  intro h
  exact absurd (h [0, 2] ⟨{}, []⟩) (by decide)

end Buffers

end Velox
