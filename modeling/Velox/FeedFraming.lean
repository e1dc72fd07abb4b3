import Velox.FeedHandler
import Velox.Lib.BigEndian

namespace Velox
set_option autoImplicit true

variable {data rest : List UInt8} {i offset count len : ℕ} {s t : FeedRun}

theorem byteAt_append (h : i < data.length) : byteAt (data ++ rest) i = byteAt data i := by
  rw [byteAt, byteAt, List.getD_append _ _ _ _ h]

theorem bytesAt_append (h : offset + count ≤ data.length) :
    bytesAt (data ++ rest) offset count = bytesAt data offset count :=
  List.map_congr_left fun i hi => by
    have hlt := List.mem_range.1 hi
    exact byteAt_append (by omega)

theorem toNat_messageLength (data : List UInt8) :
    (messageLength data).toNat = 256 * (byteAt data 0).toNat + (byteAt data 1).toNat := by
  have hb := (byteAt data 0).toNat_lt
  rw [messageLength, UInt16.toNat_or, UInt16.toNat_shiftLeft, UInt8.toNat_toUInt16,
    UInt8.toNat_toUInt16, show (8 : UInt16).toNat % 16 = 8 from rfl,
    Nat.mod_eq_of_lt (by rw [Nat.shiftLeft_eq]; omega), BigEndian.shift_or]

theorem value_take_two (h : 2 ≤ data.length) :
    BigEndian.value (data.take 2) = (messageLength data).toNat := by
  rw [toNat_messageLength]
  match data, h with
  | a :: b :: bs, _ =>
    change 256 * (256 * 0 + a.toNat) + b.toNat = 256 * a.toNat + b.toNat
    omega

theorem messageLength_of_headed (h : 2 ≤ data.length)
    (hheaded : BigEndian.value (data.take 2) = data.length) (rest : List UInt8) :
    (messageLength (data ++ rest)).toNat = data.length := by
  rw [toNat_messageLength, byteAt_append (by omega), byteAt_append (by omega),
    ← toNat_messageLength, ← value_take_two h, hheaded]

/-- A byte string whose first two bytes are its own length. -/
structure Frame where
  bytes : List UInt8
  long : 3 ≤ bytes.length
  headed : BigEndian.value (bytes.take 2) = bytes.length

namespace Frame

variable (f : Frame)

def length : ℕ := f.bytes.length

def msgType : UInt8 := f.bytes.get ⟨2, f.long⟩

theorem messageLength_append (rest : List UInt8) :
    (messageLength (f.bytes ++ rest)).toNat = f.length :=
  messageLength_of_headed (Nat.le_of_succ_le f.long) f.headed rest

end Frame

/-- A type that a handler parses: `A`, `F`, `X`, `U`, `E` or `C`. -/
def ParsedType (b : UInt8) : Prop := b = 65 ∨ b = 70 ∨ b = 88 ∨ b = 85 ∨ b = 69 ∨ b = 67

instance : DecidablePred ParsedType := fun _ => inferInstanceAs (Decidable (_ ∨ _))

/-- The length that a handler asks for before it reads the fields. -/
def typeMinimum (b : UInt8) : ℕ :=
  if b = 65 ∨ b = 70 then 35
  else if b = 88 then 23
  else if b = 85 then 35
  else if b = 69 ∨ b = 67 then 27
  else 0

theorem typeMinimum_of_parsed {b : UInt8} (h : ParsedType b) : 23 ≤ typeMinimum b := by
  rcases h with rfl | rfl | rfl | rfl | rfl | rfl <;> decide

theorem typeMinimum_of_not_parsed {b : UInt8} (h : ¬ ParsedType b) : typeMinimum b = 0 := by
  simp only [ParsedType, not_or] at h
  simp only [typeMinimum, h, or_self, if_false]

namespace FeedRun

variable (f : Frame)

theorem dispatch_cases (msgType : UInt8) (data : List UInt8) (len : ℕ) (s : FeedRun) :
    (ParsedType msgType ∧ ∃ callbacks announce,
      s.dispatch msgType data len = s.parse (typeMinimum msgType) callbacks announce len) ∨
    (¬ ParsedType msgType ∧ s.dispatch msgType data len = s) := by
  rw [dispatch, typeMinimum]
  by_cases hadd : msgType = 65 ∨ msgType = 70
  · rw [if_pos hadd, if_pos hadd]
    exact .inl ⟨by unfold ParsedType; tauto, _, _, rfl⟩
  · rw [if_neg hadd, if_neg hadd]
    by_cases hcancel : msgType = 88
    · rw [if_pos hcancel, if_pos hcancel]
      exact .inl ⟨by unfold ParsedType; tauto, _, _, rfl⟩
    · rw [if_neg hcancel, if_neg hcancel]
      by_cases hreplace : msgType = 85
      · rw [if_pos hreplace, if_pos hreplace]
        exact .inl ⟨by unfold ParsedType; tauto, _, _, rfl⟩
      · rw [if_neg hreplace, if_neg hreplace]
        by_cases hexecuted : msgType = 69 ∨ msgType = 67
        · rw [if_pos hexecuted, if_pos hexecuted]
          exact .inl ⟨by unfold ParsedType; tauto, _, _, rfl⟩
        · rw [if_neg hexecuted]
          exact .inr ⟨by unfold ParsedType; tauto, rfl⟩

/-- What a parser does to a run depends on the announcements of long enough messages only. -/
theorem parse_congr {minimum : ℕ} {callbacks : FeedHandler → Callbacks}
    {announce announce' : CallbackId → Invocation} (h : minimum ≤ len → announce' = announce) :
    parse minimum callbacks announce' len = parse minimum callbacks announce len := by
  funext s
  rw [parse, parse]
  split
  · rfl
  · rw [h (by omega)]

theorem dispatch_append (msgType : UInt8) (data rest : List UInt8) (s : FeedRun) :
    s.dispatch msgType (data ++ rest) data.length = s.dispatch msgType data data.length := by
  have hadd : parseAddOrder (data ++ rest) data.length = parseAddOrder data data.length :=
    parse_congr fun h => by
      simp only [addedOrder, readUInt64, readUInt32, parseTimestamp, parsePrice, parseSymbol,
        copySymbol]
      rw [bytesAt_append (by omega), bytesAt_append (by omega), bytesAt_append (by omega),
        bytesAt_append (by omega), bytesAt_append (by omega), byteAt_append (by omega)]
  have hcancel : parseOrderCancel (data ++ rest) data.length = parseOrderCancel data data.length :=
    parse_congr fun h => by
      rw [readUInt64, bytesAt_append (by omega), readUInt64]
  have hreplace : parseOrderReplace (data ++ rest) data.length =
      parseOrderReplace data data.length :=
    parse_congr fun h => by
      simp only [readUInt64, readUInt32, parsePrice]
      rw [bytesAt_append (by omega), bytesAt_append (by omega), bytesAt_append (by omega)]
  have hexecuted : parseOrderExecuted (data ++ rest) data.length =
      parseOrderExecuted data data.length :=
    parse_congr fun h => by
      simp only [readUInt64, readUInt32]
      rw [bytesAt_append (by omega), bytesAt_append (by omega)]
  rw [dispatch, dispatch, hadd, hcancel, hreplace, hexecuted]

def message (s : FeedRun) : FeedRun := s.dispatch f.msgType f.bytes f.length

theorem parse_counts (minimum : ℕ) (callbacks : FeedHandler → Callbacks)
    (announce : CallbackId → Invocation) (len : ℕ) (s : FeedRun) :
    (s.parse minimum callbacks announce len).handler.mMessageCount +
      (s.parse minimum callbacks announce len).handler.mErrorCount =
        s.handler.mMessageCount + s.handler.mErrorCount + 1 := by
  rw [parse]
  split
  · rw [UInt64.add_assoc]
    rfl
  · change s.handler.mMessageCount + 1 + s.handler.mErrorCount = _
    rw [UInt64.add_assoc, UInt64.add_comm 1, ← UInt64.add_assoc]

theorem message_cases (s : FeedRun) :
    (ParsedType f.msgType ∧ ∃ callbacks announce,
      s.message f = s.parse (typeMinimum f.msgType) callbacks announce f.length) ∨
    (¬ ParsedType f.msgType ∧ s.message f = s) :=
  s.dispatch_cases f.msgType f.bytes f.length

theorem message_sound (hf : typeMinimum f.msgType ≤ f.length) (s : FeedRun) :
    (s.message f).handler.mErrorCount = s.handler.mErrorCount := by
  rcases message_cases f s with ⟨-, callbacks, announce, he⟩ | ⟨-, he⟩
  · rw [he, parse, if_neg (by omega)]
  · rw [he]

theorem message_counts (s : FeedRun) :
    (s.message f).handler.mMessageCount + (s.message f).handler.mErrorCount =
      s.handler.mMessageCount + s.handler.mErrorCount + if ParsedType f.msgType then 1 else 0 := by
  rcases message_cases f s with ⟨hf, callbacks, announce, he⟩ | ⟨hf, he⟩
  · rw [he, if_pos hf]
    exact parse_counts ..
  · rw [he, if_neg hf, UInt64.add_zero]

end FeedRun

def drain (s : FeedLoop) : Option FeedRun :=
  (Loop.run processBody (s.left + 1) s).map FeedLoop.run

theorem processBody_left (s t : FeedLoop) (h : processBody s = some (.inr t)) : t.left < s.left := by
  simp only [processBody] at h
  split at h
  · cases h
  · split at h
    · cases h
    · rename_i hleft hlength
      obtain ⟨msgType, -, he⟩ := Option.map_eq_some_iff.1 h
      obtain rfl := Sum.inr.inj he
      rw [not_or, UInt16.not_lt, UInt16.le_iff_toNat_le, show (2 : UInt16).toNat = 2 from rfl]
        at hlength
      change s.left - _ < s.left
      omega

theorem drain_again {s t : FeedLoop} (h : processBody s = some (.inr t)) : drain s = drain t := by
  have hlt := processBody_left s t h
  rw [drain, Loop.run_again h, Loop.run_budget processBody_left hlt (Nat.lt_succ_self _), drain]

theorem drain_leave {s t : FeedLoop} (h : processBody s = some (.inl t)) : drain s = some t.run := by
  rw [drain, Loop.run_leave h, Option.map_some]

theorem process_eq_drain (data : List UInt8) (len : ℕ) (s : FeedRun) :
    FeedHandler.process (some data) len s = drain ⟨s, data, len⟩ := by
  rw [FeedHandler.process]
  split
  · rename_i hlen
    subst hlen
    exact (drain_leave (t := ⟨s, data, 0⟩) rfl).symm
  · rfl

theorem processBody_frame (f : Frame) (rest : List UInt8) (left : ℕ) (s : FeedRun) :
    processBody ⟨s, f.bytes ++ rest, f.length + left⟩ = some (.inr ⟨s.message f, rest, left⟩) := by
  have hlong : 3 ≤ f.length := f.long
  have hlength := f.messageLength_append rest
  have htype : (f.bytes ++ rest)[2]? = some f.msgType := by
    rw [List.getElem?_append_left f.long, List.getElem?_eq_getElem f.long]
    rfl
  have hmin : ¬ (messageLength (f.bytes ++ rest) < 2 ∨
      f.length + left < (messageLength (f.bytes ++ rest)).toNat) := by
    rw [UInt16.lt_iff_toNat_lt, hlength, show (2 : UInt16).toNat = 2 from rfl]
    omega
  simp only [processBody]
  rw [if_neg (by omega), if_neg hmin, htype, Option.map_some, hlength, Frame.length,
    List.drop_left, FeedRun.dispatch_append, Nat.add_sub_cancel_left]
  rfl

theorem drain_frame (f : Frame) (rest : List UInt8) (left : ℕ) (s : FeedRun) :
    drain ⟨s, f.bytes ++ rest, f.length + left⟩ = drain ⟨s.message f, rest, left⟩ :=
  drain_again (processBody_frame f rest left s)

theorem drain_frames (frames : List Frame) (rest : List UInt8) (left : ℕ) (s : FeedRun) :
    drain ⟨s, frames.flatMap Frame.bytes ++ rest, (frames.flatMap Frame.bytes).length + left⟩ =
      drain ⟨frames.foldl (fun s f => s.message f) s, rest, left⟩ := by
  induction frames generalizing s with
  | nil => rw [List.flatMap_nil, List.nil_append, List.length_nil, Nat.zero_add, List.foldl_nil]
  | cons f frames ih =>
    rw [List.flatMap_cons, List.length_append, List.append_assoc, Nat.add_assoc]
    exact (drain_frame f _ _ s).trans (ih _)

theorem process_frame (f : Frame) (s : FeedRun) :
    FeedHandler.process (some f.bytes) f.length s = some (s.message f) := by
  have hdrain := drain_frame f [] 0 s
  rw [List.append_nil] at hdrain
  rw [process_eq_drain]
  exact hdrain.trans (drain_leave (t := ⟨s.message f, [], 0⟩) rfl)

theorem foldl_message_counts (frames : List Frame) (s : FeedRun) :
    let t := frames.foldl (fun s f => s.message f) s
    t.handler.mMessageCount + t.handler.mErrorCount =
      s.handler.mMessageCount + s.handler.mErrorCount +
        UInt64.ofNat (frames.countP fun f => ParsedType f.msgType) := by
  induction frames generalizing s with
  | nil => exact (UInt64.add_zero _).symm
  | cons f frames ih =>
    refine (ih _).trans ?_
    rw [s.message_counts, List.countP_cons, UInt64.ofNat_add, UInt64.add_assoc,
      UInt64.add_comm (UInt64.ofNat _)]
    by_cases hf : ParsedType f.msgType
    · simp [hf]
    · simp [hf]

/-- Frames are processed one after the other, whatever they hold and whatever follows; over them the
counts grow by the number of frames of a parsed type. -/
theorem framing_compositional (frames : List Frame) (tail memory : List UInt8) (s : FeedRun) :
    (FeedHandler.process (some (frames.flatMap Frame.bytes ++ (tail ++ memory)))
        ((frames.flatMap Frame.bytes).length + tail.length) s =
      (frames.foldlM (fun s f => FeedHandler.process (some f.bytes) f.length s) s).bind
        (FeedHandler.process (some (tail ++ memory)) tail.length)) ∧
    ∃ t, frames.foldlM (fun s f => FeedHandler.process (some f.bytes) f.length s) s = some t ∧
      t.handler.mMessageCount + t.handler.mErrorCount =
        s.handler.mMessageCount + s.handler.mErrorCount +
          UInt64.ofNat (frames.countP fun f => ParsedType f.msgType) := by
  have hframes : frames.foldlM (fun s f => FeedHandler.process (some f.bytes) f.length s) s =
      some (frames.foldl (fun s f => s.message f) s) := by
    simp only [process_frame]
    exact List.foldlM_pure
  rw [hframes]
  refine ⟨?_, _, rfl, foldl_message_counts frames s⟩
  rw [process_eq_drain, drain_frames, Option.bind_some, process_eq_drain]

end Velox
