import Velox.CreateItch

namespace Velox
set_option autoImplicit true

/-- `BUFFER_SIZE`. -/
abbrev chunkSize : ℕ := 65536

/-- The read loop of the replay tool: what is still to be read of the file, and the buffer. -/
structure ItchReplay where
  run : FeedRun
  file : List UInt8
  buffer : List UInt8

/-- A short read leaves the end of the buffer as it was. -/
def replayBody (s : ItchReplay) : Option (ItchReplay ⊕ ItchReplay) :=
  let chunk := s.file.take chunkSize
  if chunk.length = chunkSize ∨ chunk.length > 0 then
    let buffer := chunk ++ s.buffer.drop chunk.length
    (FeedHandler.process (some buffer) chunk.length s.run).map fun run =>
      .inr { run, file := s.file.drop chunkSize, buffer }
  else some (.inl s)

/-- Every turn but the last reads a byte, so the size of the file bounds the turns. -/
def replayFile (file : List UInt8) (s : FeedRun) : Option FeedRun :=
  (Loop.run replayBody (file.length + 1) ⟨s, file, List.replicate chunkSize 0⟩).map ItchReplay.run

/-- Every frame, at its place in the file, has a property. -/
def Placed (P : ℕ → Frame → Prop) : ℕ → List Frame → Prop
  | _, [] => True
  | offset, f :: frames => P offset f ∧ Placed P (offset + f.length) frames

instance (P : ℕ → Frame → Prop) [∀ n f, Decidable (P n f)] :
    (offset : ℕ) → (frames : List Frame) → Decidable (Placed P offset frames)
  | _, [] => isTrue trivial
  | offset, f :: frames =>
    have := instDecidablePlaced P (offset + f.length) frames
    inferInstanceAs (Decidable (P offset f ∧ Placed P (offset + f.length) frames))

/-- The first and the last byte of the frame are in one chunk. -/
def InChunk (offset : ℕ) (f : Frame) : Prop :=
  offset / chunkSize = (offset + f.length - 1) / chunkSize

instance (offset : ℕ) (f : Frame) : Decidable (InChunk offset f) :=
  inferInstanceAs (Decidable (_ = _))

/-- The frame does not begin with the last byte of a chunk. -/
def BeginsBefore (offset : ℕ) (_ : Frame) : Prop := offset % chunkSize + 1 ≠ chunkSize

variable {frames : List Frame} {offset : ℕ} {s t : FeedRun} {r r' : ItchReplay}

theorem placed_append {P : ℕ → Frame → Prop} {now later : List Frame} :
    Placed P offset (now ++ later) ↔
      Placed P offset now ∧ Placed P (offset + (now.flatMap Frame.bytes).length) later := by
  induction now generalizing offset with
  | nil => exact ⟨fun h => ⟨trivial, h⟩, And.right⟩
  | cons f now ih =>
    rw [List.cons_append, Placed, Placed, ih, and_assoc, List.flatMap_cons, List.length_append,
      ← Nat.add_assoc]
    rfl

/-- Up to the end of the chunk there are whole frames, and possibly the beginning of one that is
cut. -/
theorem split_chunk (frames : List Frame) (offset : ℕ) :
    ∃ now later, frames = now ++ later ∧ Placed InChunk offset now ∧
      ((later = [] ∧ (now.flatMap Frame.bytes).length ≤ chunkSize - offset % chunkSize) ∨
      (now.flatMap Frame.bytes).length = chunkSize - offset % chunkSize ∨
      ∃ f post, later = f :: post ∧
        (now.flatMap Frame.bytes).length < chunkSize - offset % chunkSize ∧
        chunkSize - offset % chunkSize < (now.flatMap Frame.bytes).length + f.length) := by
  induction frames generalizing offset with
  | nil => exact ⟨[], [], rfl, trivial, .inl ⟨rfl, Nat.zero_le _⟩⟩
  | cons f frames ih =>
    have hlong : 3 ≤ f.length := f.long
    rcases Nat.lt_trichotomy f.length (chunkSize - offset % chunkSize) with hlt | he | hgt
    · have hin : InChunk offset f := by
        simp only [InChunk, chunkSize] at *
        omega
      have hroom : chunkSize - (offset + f.length) % chunkSize =
          chunkSize - offset % chunkSize - f.length := by
        simp only [chunkSize] at *
        omega
      obtain ⟨now, later, rfl, hnow, hsplit⟩ := ih (offset + f.length)
      have hlength : ((f :: now).flatMap Frame.bytes).length =
          f.length + (now.flatMap Frame.bytes).length := by
        rw [List.flatMap_cons, List.length_append]
        rfl
      refine ⟨f :: now, later, rfl, ⟨hin, hnow⟩, ?_⟩
      rw [hlength]
      rw [hroom] at hsplit
      rcases hsplit with ⟨rfl, hle⟩ | he | ⟨g, post, rfl, hbefore, hafter⟩
      · exact .inl ⟨rfl, by omega⟩
      · exact .inr (.inl (by omega))
      · exact .inr (.inr ⟨g, post, rfl, by omega, by omega⟩)
    · refine ⟨[f], frames, rfl, ⟨?_, trivial⟩, .inr (.inl ?_)⟩
      · simp only [InChunk, chunkSize] at *
        omega
      · rw [List.flatMap_singleton]
        exact he
    · refine ⟨[], f :: frames, rfl, trivial, .inr (.inr ⟨f, frames, rfl, ?_, ?_⟩)⟩
      · simp only [List.flatMap_nil, List.length_nil, chunkSize]
        omega
      · simpa using hgt

def readOn (r : ItchReplay) : Option FeedRun :=
  (Loop.run replayBody (r.file.length + 1) r).map ItchReplay.run

theorem replayFile_eq (file : List UInt8) (s : FeedRun) :
    replayFile file s = readOn ⟨s, file, List.replicate chunkSize 0⟩ := rfl

theorem replayBody_file (r r' : ItchReplay) (h : replayBody r = some (.inr r')) :
    r'.file.length < r.file.length := by
  simp only [replayBody] at h
  split at h
  · rename_i hread
    obtain ⟨run, -, he⟩ := Option.map_eq_some_iff.1 h
    obtain rfl := Sum.inr.inj he
    rw [List.length_take] at hread
    change (r.file.drop chunkSize).length < r.file.length
    rw [List.length_drop]
    simp only [chunkSize] at hread ⊢
    omega
  · cases h

theorem readOn_again (h : replayBody r = some (.inr r')) : readOn r = readOn r' := by
  have hlt := replayBody_file r r' h
  rw [readOn, Loop.run_again h, Loop.run_budget replayBody_file hlt (Nat.lt_succ_self _), readOn]

theorem readOn_end (s : FeedRun) (buffer : List UInt8) : readOn ⟨s, [], buffer⟩ = some s := by
  rw [readOn, Loop.run_leave (t := ⟨s, [], buffer⟩) rfl, Option.map_some]

theorem readOn_chunk (chunk rest : List UInt8) (s : FeedRun) (buffer : List UInt8)
    (hchunk : chunk.length = chunkSize ∨ (0 < chunk.length ∧ chunk.length < chunkSize ∧ rest = [])) :
    readOn ⟨s, chunk ++ rest, buffer⟩ =
      (FeedHandler.process (some (chunk ++ buffer.drop chunk.length)) chunk.length s).bind
        fun run => readOn ⟨run, rest, chunk ++ buffer.drop chunk.length⟩ := by
  have hsplit : (chunk ++ rest).take chunkSize = chunk ∧ (chunk ++ rest).drop chunkSize = rest := by
    rcases hchunk with he | ⟨-, hlt, rfl⟩
    · rw [← he]
      exact ⟨List.take_left, List.drop_left⟩
    · rw [List.append_nil]
      exact ⟨List.take_of_length_le hlt.le, List.drop_of_length_le hlt.le⟩
  have hread : chunk.length = chunkSize ∨ chunk.length > 0 := by
    rcases hchunk with he | ⟨hpos, -, -⟩
    · exact .inl he
    · exact .inr hpos
  have hbody : replayBody ⟨s, chunk ++ rest, buffer⟩ =
      (FeedHandler.process (some (chunk ++ buffer.drop chunk.length)) chunk.length s).map
        fun run => .inr ⟨run, rest, chunk ++ buffer.drop chunk.length⟩ := by
    simp only [replayBody, hsplit.1, hsplit.2]
    rw [if_pos hread]
  cases hp : FeedHandler.process (some (chunk ++ buffer.drop chunk.length)) chunk.length s with
  | none =>
    rw [hp] at hbody
    rw [readOn, Loop.run, hbody]
    rfl
  | some run =>
    rw [hp] at hbody
    rw [readOn_again hbody, Option.bind_some]

theorem process_frames (frames : List Frame) (memory : List UInt8) (s : FeedRun) :
    FeedHandler.process (some (frames.flatMap Frame.bytes ++ memory))
      (frames.flatMap Frame.bytes).length s = some (frames.foldl (fun s f => s.message f) s) := by
  have hdrain := drain_frames frames memory 0 s
  rw [process_eq_drain]
  exact hdrain.trans (drain_leave (t := ⟨_, memory, 0⟩) rfl)

theorem readOn_now {now : List Frame} (later : List Frame) (s : FeedRun) (buffer : List UInt8)
    (hne : now ≠ [])
    (h : (later = [] ∧ (now.flatMap Frame.bytes).length ≤ chunkSize) ∨
      (now.flatMap Frame.bytes).length = chunkSize) :
    ∃ buffer', readOn ⟨s, now.flatMap Frame.bytes ++ later.flatMap Frame.bytes, buffer⟩ =
      readOn ⟨now.foldl (fun s f => s.message f) s, later.flatMap Frame.bytes, buffer'⟩ := by
  have hpos : 0 < (now.flatMap Frame.bytes).length := by
    obtain ⟨f, fs, rfl⟩ := List.exists_cons_of_ne_nil hne
    have hlong := f.long
    rw [List.flatMap_cons, List.length_append]
    omega
  have hchunk : (now.flatMap Frame.bytes).length = chunkSize ∨
      (0 < (now.flatMap Frame.bytes).length ∧ (now.flatMap Frame.bytes).length < chunkSize ∧
        later.flatMap Frame.bytes = []) := by
    rcases h with ⟨rfl, hle⟩ | he
    · rcases Nat.lt_or_eq_of_le hle with hlt | he
      · exact .inr ⟨hpos, hlt, rfl⟩
      · exact .inl he
    · exact .inl he
  rw [readOn_chunk _ _ s buffer hchunk, process_frames, Option.bind_some]
  exact ⟨_, rfl⟩

theorem readOn_frames (h : Placed InChunk offset frames) (hoffset : offset % chunkSize = 0)
    (s : FeedRun) (buffer : List UInt8) :
    readOn ⟨s, frames.flatMap Frame.bytes, buffer⟩ =
      some (frames.foldl (fun s f => s.message f) s) := by
  induction hn : frames.length using Nat.strong_induction_on
    generalizing frames offset s buffer with
  | h n ih =>
    subst hn
    obtain ⟨now, later, rfl, -, hsplit⟩ := split_chunk frames offset
    have hlater := (placed_append.1 h).2
    rw [hoffset, Nat.sub_zero] at hsplit
    rcases hsplit with ⟨rfl, hle⟩ | he | ⟨f, post, rfl, hbefore, hafter⟩
    · rw [List.append_nil]
      by_cases hne : now = []
      · subst hne
        exact readOn_end s buffer
      · obtain ⟨buffer', hread⟩ := readOn_now [] s buffer hne (.inl ⟨rfl, hle⟩)
        rw [List.flatMap_nil, List.append_nil] at hread
        rw [hread]
        exact readOn_end _ buffer'
    · have hne : now ≠ [] := fun hnil => by
        rw [hnil] at he
        cases he
      obtain ⟨buffer', hread⟩ := readOn_now later s buffer hne (.inr he)
      rw [he] at hlater
      rw [List.flatMap_append, hread, List.foldl_append]
      refine ih _ ?_ hlater (by rw [Nat.add_mod_right, hoffset]) _ buffer' rfl
      have hpos := List.length_pos_iff.2 hne
      rw [List.length_append]
      omega
    · have hin := hlater.1
      have hlong : 3 ≤ f.length := f.long
      simp only [InChunk, chunkSize] at *
      omega

theorem processFile_frames (frames : List Frame) (s : FeedRun) :
    FeedHandler.processFile (some (frames.flatMap Frame.bytes)) s =
      some (frames.foldl (fun s f => s.message f) s) := by
  have hframes := process_frames frames [] s
  rwa [List.append_nil] at hframes

theorem parse_errors (minimum : ℕ) (callbacks : FeedHandler → Callbacks)
    (announce : CallbackId → Invocation) (len : ℕ) (s : FeedRun) : ∃ k ≤ 1,
    (s.parse minimum callbacks announce len).handler.mErrorCount =
      s.handler.mErrorCount + UInt64.ofNat k := by
  rw [FeedRun.parse]
  split
  · exact ⟨1, le_rfl, rfl⟩
  · exact ⟨0, Nat.zero_le _, (UInt64.add_zero _).symm⟩

theorem dispatch_errors (msgType : UInt8) (data : List UInt8) (len : ℕ) (s : FeedRun) : ∃ k ≤ 1,
    (s.dispatch msgType data len).handler.mErrorCount =
      s.handler.mErrorCount + UInt64.ofNat k := by
  rcases s.dispatch_cases msgType data len with ⟨-, callbacks, announce, he⟩ | ⟨-, he⟩
  · rw [he]
    exact parse_errors ..
  · rw [he]
    exact ⟨0, Nat.zero_le _, (UInt64.add_zero _).symm⟩

/-- Compared with a start, the errors have grown by no more than the bytes that were worked off. -/
def ErrorsWithin (s : FeedRun) (size : ℕ) (t : FeedRun) (left : ℕ) : Prop :=
  ∃ k, k + left ≤ size ∧ t.handler.mErrorCount = s.handler.mErrorCount + UInt64.ofNat k

theorem ErrorsWithin.grow {size left left' : ℕ} {u : FeedRun} {k : ℕ} (h : ErrorsWithin s size t left)
    (hk : k + left' ≤ left)
    (hu : u.handler.mErrorCount = t.handler.mErrorCount + UInt64.ofNat k) :
    ErrorsWithin s size u left' := by
  obtain ⟨n, hn, he⟩ := h
  exact ⟨n + k, by omega, by rw [hu, he, UInt64.add_assoc, UInt64.ofNat_add]⟩

theorem processBody_errors (s : FeedRun) (size : ℕ) (u : FeedLoop) (r : FeedLoop ⊕ FeedLoop)
    (h : ErrorsWithin s size u.run u.left) (hr : processBody u = some r) :
    Sum.elim (fun t => ErrorsWithin s size t.run 0) (fun t => ErrorsWithin s size t.run t.left) r := by
  simp only [processBody] at hr
  split at hr
  · obtain rfl := Option.some.inj hr
    exact h.grow (k := 0) (by omega) (UInt64.add_zero _).symm
  · split at hr
    · obtain rfl := Option.some.inj hr
      exact h.grow (k := 1) (by omega) rfl
    · rename_i hleft hlength
      obtain ⟨msgType, -, rfl⟩ := Option.map_eq_some_iff.1 hr
      rw [not_or, UInt16.not_lt, UInt16.le_iff_toNat_le, show (2 : UInt16).toNat = 2 from rfl]
        at hlength
      obtain ⟨k, hk, he⟩ := dispatch_errors msgType u.ptr (messageLength u.ptr).toNat u.run
      refine h.grow (k := k) ?_ he
      change k + (u.left - (messageLength u.ptr).toNat) ≤ u.left
      omega

theorem process_errors {data : List UInt8} {len : ℕ}
    (h : FeedHandler.process (some data) len s = some t) : ErrorsWithin s len t 0 := by
  rw [process_eq_drain] at h
  obtain ⟨u, hu, rfl⟩ := Option.map_eq_some_iff.1 h
  refine Loop.run_sound (I := fun u => ErrorsWithin s len u.run u.left)
    (P := fun u => ErrorsWithin s len u.run 0) processBody (fun u hi r hr => ?_)
    ⟨0, (Nat.zero_add len).le, (UInt64.add_zero _).symm⟩ hu
  have hstep := processBody_errors s len u r hi hr
  exact ⟨fun v he => by rw [he] at hstep; exact hstep,
    fun v he => by rw [he] at hstep; exact hstep⟩

theorem readOn_errors (h : readOn r = some t) : ErrorsWithin r.run r.file.length t 0 := by
  obtain ⟨u, hu, rfl⟩ := Option.map_eq_some_iff.1 h
  refine Loop.run_sound (I := fun u => ErrorsWithin r.run r.file.length u.run u.file.length)
    (P := fun u => ErrorsWithin r.run r.file.length u.run 0) replayBody (fun v hi x hx => ?_)
    ⟨0, (Nat.zero_add _).le, (UInt64.add_zero _).symm⟩ hu
  simp only [replayBody] at hx
  split at hx
  · obtain ⟨w, hw, rfl⟩ := Option.map_eq_some_iff.1 hx
    refine ⟨fun _ he => (nomatch he), fun x he => ?_⟩
    obtain rfl := Sum.inr.inj he
    obtain ⟨k, hk, he⟩ := process_errors hw
    refine hi.grow (k := k) ?_ he
    change k + (v.file.drop chunkSize).length ≤ v.file.length
    rw [List.length_take] at hk
    rw [List.length_drop]
    simp only [chunkSize] at hk ⊢
    omega
  · obtain rfl := Option.some.inj hx
    refine ⟨fun x he => ?_, fun _ he => nomatch he⟩
    obtain rfl := Sum.inl.inj he
    exact hi.grow (k := 0) (by omega) (UInt64.add_zero _).symm

/-- A frame that ends behind the memory to be processed, two bytes or more of it being there, is an
error and stops the loop. -/
theorem drain_cut (f : Frame) {left : ℕ} (hleft : 2 ≤ left) (hcut : left < f.length)
    (memory : List UInt8) (s : FeedRun) :
    drain ⟨s, f.bytes.take left ++ memory, left⟩ = some s.error := by
  have hlong : f.bytes.length = f.length := rfl
  have hhead : ∀ i < 2, byteAt (f.bytes.take left ++ memory) i = byteAt f.bytes i := fun i hi => by
    rw [byteAt_append (by rw [List.length_take]; omega), byteAt, byteAt,
      List.getD_eq_getElem?_getD, List.getElem?_take_of_lt (by omega), List.getD_eq_getElem?_getD]
  have hlength : (messageLength (f.bytes.take left ++ memory)).toNat = f.length := by
    have hwhole := f.messageLength_append []
    rw [List.append_nil, toNat_messageLength] at hwhole
    rw [toNat_messageLength, hhead 0 (by decide), hhead 1 (by decide), hwhole]
  refine drain_leave (t := ⟨s.error, f.bytes.take left ++ memory, left⟩) ?_
  simp only [processBody]
  rw [if_neg (by omega), if_pos (.inr (by omega))]

/-- A chunk that ends within a frame, at its third byte or later, counts an error. -/
theorem readOn_cut (hcut : ¬ Placed InChunk offset frames)
    (hbegin : Placed BeginsBefore offset frames) (hoffset : offset % chunkSize = 0)
    (buffer : List UInt8) (h : readOn ⟨s, frames.flatMap Frame.bytes, buffer⟩ = some t) :
    ∃ k, 1 ≤ k ∧ k ≤ (frames.flatMap Frame.bytes).length ∧
      t.handler.mErrorCount = s.handler.mErrorCount + UInt64.ofNat k := by
  induction hn : frames.length using Nat.strong_induction_on
    generalizing frames offset s buffer with
  | h n ih =>
    subst hn
    obtain ⟨now, later, rfl, hnow, hsplit⟩ := split_chunk frames offset
    obtain ⟨k₀, hk₀, he₀⟩ := process_errors (process_frames now [] s)
    have hlater : ¬ Placed InChunk (offset + (now.flatMap Frame.bytes).length) later :=
      fun hl => hcut (placed_append.2 ⟨hnow, hl⟩)
    have hbegin' := (placed_append.1 hbegin).2
    rw [hoffset, Nat.sub_zero] at hsplit
    rw [List.flatMap_append] at h ⊢
    rw [List.length_append]
    rcases hsplit with ⟨rfl, -⟩ | hfull | ⟨f, post, rfl, hbefore, hafter⟩
    · exact absurd trivial hlater
    · have hne : now ≠ [] := fun hnil => by
        rw [hnil] at hfull
        cases hfull
      obtain ⟨buffer', hread⟩ := readOn_now later s buffer hne (.inr hfull)
      rw [hread] at h
      rw [hfull] at hlater hbegin'
      have hpos := List.length_pos_iff.2 hne
      obtain ⟨k, hk, hle, he⟩ := ih later.length (by rw [List.length_append]; omega) hlater hbegin'
        (by rw [Nat.add_mod_right, hoffset]) buffer' h rfl
      exact ⟨k₀ + k, by omega, by omega, by rw [he, he₀, UInt64.add_assoc, UInt64.ofNat_add]⟩
    · obtain ⟨room, hroom⟩ : ∃ room, (now.flatMap Frame.bytes).length + room = chunkSize :=
        ⟨chunkSize - (now.flatMap Frame.bytes).length, by omega⟩
      have hroom₂ : 2 ≤ room := by
        have hb := hbegin'.1
        simp only [BeginsBefore, chunkSize] at *
        omega
      have hlong : f.bytes.length = f.length := rfl
      have htake : (f.bytes.take room).length = room := by
        rw [List.length_take]
        omega
      have hchunk : (now.flatMap Frame.bytes ++ f.bytes.take room).length = chunkSize := by
        rw [List.length_append, htake, hroom]
      have hfile : now.flatMap Frame.bytes ++ (f :: post).flatMap Frame.bytes =
          (now.flatMap Frame.bytes ++ f.bytes.take room) ++
            (f.bytes.drop room ++ post.flatMap Frame.bytes) := by
        rw [List.flatMap_cons, List.append_assoc, ← List.append_assoc (f.bytes.take room),
          List.take_append_drop]
      have hprocess : ∀ memory, FeedHandler.process
          (some ((now.flatMap Frame.bytes ++ f.bytes.take room) ++ memory)) chunkSize s =
            some (now.foldl (fun s f => s.message f) s).error := fun memory => by
        rw [process_eq_drain, List.append_assoc, ← hroom, drain_frames]
        exact drain_cut f hroom₂ (by omega) memory _
      rw [hfile, readOn_chunk _ _ s buffer (.inl hchunk), hchunk, hprocess, Option.bind_some] at h
      obtain ⟨k, hk, he⟩ := readOn_errors h
      refine ⟨k₀ + 1 + k, by omega, ?_, ?_⟩
      · have hk' : k ≤ (f.bytes.drop room ++ post.flatMap Frame.bytes).length := hk
        rw [List.length_append, List.length_drop] at hk'
        rw [List.flatMap_cons, List.length_append]
        omega
      · rw [he]
        change (now.foldl (fun s f => s.message f) s).handler.mErrorCount + 1 + _ = _
        rw [he₀, UInt64.ofNat_add, UInt64.ofNat_add, UInt64.add_assoc, UInt64.add_assoc,
          UInt64.add_assoc]
        rfl

theorem foldl_sound (h : ∀ f ∈ frames, typeMinimum f.msgType ≤ f.length) (s : FeedRun) :
    (frames.foldl (fun s f => s.message f) s).handler.mErrorCount = s.handler.mErrorCount := by
  induction frames generalizing s with
  | nil => rfl
  | cons f frames ih =>
    rw [List.foldl_cons, ih fun g hg => h g (List.mem_cons_of_mem _ hg)]
    exact s.message_sound f (h f (List.mem_cons_self ..))

/-- Replaying a file of frames in chunks does what processing it whole does if no frame is cut. Where
the frames are long enough for their types and none begins with the last byte of a chunk, this is
the only case. -/
theorem replay_matches_whole (frames : List Frame) (s : FeedRun) :
    (Placed InChunk 0 frames → replayFile (frames.flatMap Frame.bytes) s =
      FeedHandler.processFile (some (frames.flatMap Frame.bytes)) s) ∧
    ((∀ f ∈ frames, typeMinimum f.msgType ≤ f.length) → Placed BeginsBefore 0 frames →
      (frames.flatMap Frame.bytes).length < 2 ^ 64 →
        (replayFile (frames.flatMap Frame.bytes) s =
          FeedHandler.processFile (some (frames.flatMap Frame.bytes)) s ↔
            Placed InChunk 0 frames)) := by
  have hforward : Placed InChunk 0 frames → replayFile (frames.flatMap Frame.bytes) s =
      FeedHandler.processFile (some (frames.flatMap Frame.bytes)) s := fun h =>
    (readOn_frames h rfl s _).trans (processFile_frames frames s).symm
  refine ⟨hforward, fun hsound hbegin hsize => ⟨fun he => ?_, hforward⟩⟩
  by_contra hcut
  obtain ⟨k, hk, hle, herrors⟩ :=
    readOn_cut hcut hbegin rfl _ (he.trans (processFile_frames frames s))
  rw [foldl_sound hsound, eq_comm, UInt64.add_eq_left] at herrors
  have hzero : k % 2 ^ 64 = 0 := by
    rw [← UInt64.toNat_ofNat', herrors]
    rfl
  rw [Nat.mod_eq_of_lt (by omega)] at hzero
  omega

def sampleOrder : WrittenOrder where
  orderId := 1
  symbol := [65, 65, 80, 76]
  side := .BUY
  price := 10000
  quantity := 100
  short := by decide
  nonzero := by simp
  trimmed := by decide
  priced := by
    rw [show (10000 : Int64).toInt = 10000 from rfl]
    norm_num

theorem replay_matches_two_messages : ∃ frames : List Frame,
    frames = [(ItchMessage.add sampleOrder).frame, (ItchMessage.cancel 1).frame] ∧
    replayFile (frames.flatMap Frame.bytes) ⟨{}, []⟩ =
      FeedHandler.processFile (some (frames.flatMap Frame.bytes)) ⟨{}, []⟩ :=
  ⟨_, rfl, (replay_matches_whole _ _).1 (by decide +kernel)⟩

def sampleFrame : Frame := (ItchMessage.add sampleOrder).frame

def sampleFile (n : ℕ) : List UInt8 := (List.replicate n sampleFrame).flatMap Frame.bytes

def listening : FeedRun := ⟨{ mOnAddOrder := [some 0] }, []⟩

theorem length_sampleFile (n : ℕ) : (sampleFile n).length = n * 35 := by
  rw [sampleFile, List.length_flatMap, List.map_replicate, List.sum_replicate, smul_eq_mul]
  exact congrArg (n * ·) sampleOrder.length_encode

theorem foldl_sampleFile (n : ℕ) : ∃ t,
    (List.replicate n sampleFrame).foldl (fun s f => s.message f) listening = t ∧
    t.handler.mMessageCount = UInt64.ofNat n ∧ t.handler.mErrorCount = 0 ∧ t.calls.length = n := by
  refine ⟨_, rfl, ?_⟩
  rw [sampleFrame, ← List.map_replicate, ItchMessage.foldl_message, List.length_replicate]
  refine ⟨UInt64.zero_add _, rfl, ?_⟩
  change ([] ++ _).length = n
  rw [List.nil_append, List.length_flatMap, List.map_replicate, List.sum_replicate, smul_eq_mul]
  exact Nat.mul_one n

/-- The end of a cut order begins with two zeros, which are no length. -/
theorem process_end_of_order (memory : List UInt8) (s : FeedRun) :
    FeedHandler.process (some (sampleFrame.bytes.drop 16 ++ memory)) 19 s = some s.error := by
  have hlength : messageLength (sampleFrame.bytes.drop 16 ++ memory) = 0 := UInt16.toNat.inj (by
    rw [toNat_messageLength, show byteAt (sampleFrame.bytes.drop 16 ++ memory) 0 = 0 from rfl,
      show byteAt (sampleFrame.bytes.drop 16 ++ memory) 1 = 0 from rfl]
    rfl)
  rw [process_eq_drain]
  refine drain_leave (t := ⟨s.error, sampleFrame.bytes.drop 16 ++ memory, 19⟩) ?_
  simp only [processBody, hlength]
  rfl

/-- In a file of 1873 orders as the writer writes them the last one is cut: 1872 orders are told and
two errors are counted. -/
theorem last_of_many_orders_cut : ∃ t u,
    FeedHandler.processFile (some (sampleFile 1873)) listening = some t ∧
    replayFile (sampleFile 1873) listening = some u ∧
    t.handler.mMessageCount = 1873 ∧ t.handler.mErrorCount = 0 ∧ t.calls.length = 1873 ∧
    u.handler.mMessageCount = 1872 ∧ u.handler.mErrorCount = 2 ∧ u.calls.length = 1872 := by
  obtain ⟨t, ht, hmessages, herrors, hcalls⟩ := foldl_sampleFile 1873
  obtain ⟨u, hu, hmessages', herrors', hcalls'⟩ := foldl_sampleFile 1872
  have hchunk : (sampleFile 1872 ++ sampleFrame.bytes.take 16).length = chunkSize := by
    rw [List.length_append, length_sampleFile]
    rfl
  have hrest : (sampleFrame.bytes.drop 16).length = 19 := rfl
  have hfile : sampleFile 1873 =
      (sampleFile 1872 ++ sampleFrame.bytes.take 16) ++ sampleFrame.bytes.drop 16 := by
    rw [sampleFile, List.replicate_succ', List.flatMap_append, List.flatMap_singleton,
      List.append_assoc, List.take_append_drop]
    rfl
  have hfirst : ∀ memory, FeedHandler.process
      (some ((sampleFile 1872 ++ sampleFrame.bytes.take 16) ++ memory)) chunkSize listening =
        some u.error := fun memory => by
    rw [process_eq_drain, List.append_assoc,
      show chunkSize = (sampleFile 1872).length + 16 by rw [length_sampleFile], sampleFile,
      drain_frames, hu]
    exact drain_cut sampleFrame (by decide) (by decide) memory _
  have hlast : ∀ s buffer, readOn ⟨s, sampleFrame.bytes.drop 16, buffer⟩ = some s.error :=
    fun s buffer => by
      have hread := readOn_chunk (sampleFrame.bytes.drop 16) [] s buffer
        (.inr ⟨by omega, by simp only [chunkSize]; omega, rfl⟩)
      rw [List.append_nil, hrest, process_end_of_order, Option.bind_some, readOn_end] at hread
      exact hread
  have hread : replayFile (sampleFile 1873) listening = some u.error.error := by
    rw [replayFile_eq, hfile, readOn_chunk _ _ listening _ (.inl hchunk), hchunk, hfirst,
      Option.bind_some]
    exact hlast _ _
  have hwhole : FeedHandler.processFile (some (sampleFile 1873)) listening = some t := by
    rw [← ht]
    exact processFile_frames _ listening
  refine ⟨t, u.error.error, hwhole, hread, hmessages, herrors, hcalls, hmessages', ?_, hcalls'⟩
  change u.handler.mErrorCount + 1 + 1 = 2
  rw [herrors']
  rfl

end Velox
