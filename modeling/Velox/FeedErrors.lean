import Velox.FeedReads

namespace Velox
set_option autoImplicit true

/-- Frames one after the other, each as long as the handler of its type asks for. -/
def WellFormedFeed (bytes : List UInt8) : Prop :=
  ∃ frames : List Frame, bytes = frames.flatMap Frame.bytes ∧
    ∀ f ∈ frames, ParsedType f.msgType → typeMinimum f.msgType ≤ f.length

/-- Buffers in which nothing is taken for an error, marked when something of them is dropped: a single
byte at the end, or a bare length of two before a byte that is no type. -/
inductive Quiet : Bool → List UInt8 → Prop
  | nil : Quiet false []
  | byte (b : UInt8) : Quiet true [b]
  | frame {dropped : Bool} {rest : List UInt8} (f : Frame) (hf : typeMinimum f.msgType ≤ f.length)
    (h : Quiet dropped rest) : Quiet dropped (f.bytes ++ rest)
  | bare {dropped : Bool} {rest : List UInt8} (b : UInt8) (hb : ¬ ParsedType b)
    (h : Quiet dropped (b :: rest)) : Quiet true (0 :: 2 :: b :: rest)

/-- Processing returns; it counts no error for a well-formed feed, and some for any other buffer. -/
def ReportsErrors (bytes : List UInt8) (s : FeedRun) : Prop :=
  ∃ t, FeedHandler.process (some bytes) bytes.length s = some t ∧
    (WellFormedFeed bytes → t.handler.mErrorCount = s.handler.mErrorCount) ∧
      (¬ WellFormedFeed bytes → ∃ k, 0 < k ∧ k ≤ bytes.length ∧
        t.handler.mErrorCount = s.handler.mErrorCount + UInt64.ofNat k)

section Errors
variable {f : Frame} {b : UInt8} {bytes rest : List UInt8} {s t : FeedRun} {dropped : Bool}
  {k : ℕ}

theorem Frame.headed_bytes (f : Frame) : Headed f.bytes := ⟨Nat.le_of_succ_le f.long, f.headed⟩

theorem Frame.fits_iff (f : Frame) : (ParsedType f.msgType → typeMinimum f.msgType ≤ f.length) ↔
    typeMinimum f.msgType ≤ f.length := by
  constructor
  · intro h
    by_cases hf : ParsedType f.msgType
    · exact h hf
    · exact (typeMinimum_of_not_parsed hf).trans_le (Nat.zero_le _)
  · intro h _
    exact h

theorem Headed.cases {c : List UInt8} (h : Headed c) : (∃ f : Frame, f.bytes = c) ∨ c = [0, 2] := by
  by_cases hlong : 3 ≤ c.length
  · exact .inl ⟨⟨c, hlong, h.headed⟩, rfl⟩
  · rcases buffer_cases c with hshort | ⟨-, hbad⟩ | hbare | ⟨d, rest, -, -, hthree⟩
    · exact absurd h.long (Nat.not_le.2 hshort)
    · have hgood := h.not_badLength []
      rw [List.append_nil] at hgood
      exact absurd hbad hgood
    · exact .inr hbare
    · exact absurd hthree hlong

namespace Quiet

theorem not_badLength (h : Quiet dropped bytes) (htwo : 2 ≤ bytes.length) : ¬ BadLength bytes := by
  cases h with
  | nil => exact absurd htwo (by decide)
  | byte b => exact absurd htwo (Nat.not_le.2 Nat.one_lt_two)
  | frame f hf h => exact f.headed_bytes.not_badLength _
  | bare b hb h => exact headed_bare.not_badLength _

theorem frame_iff : Quiet dropped (f.bytes ++ rest) ↔
    typeMinimum f.msgType ≤ f.length ∧ Quiet dropped rest := by
  constructor
  · intro h
    have hlong := f.long
    generalize hbytes : f.bytes ++ rest = bytes at h
    have hlen := congrArg List.length hbytes
    rw [List.length_append] at hlen
    cases h with
    | nil => rw [List.length_nil] at hlen; omega
    | byte b => rw [List.length_singleton] at hlen; omega
    | frame g hg h =>
      obtain ⟨hfg, rfl⟩ := f.headed_bytes.append_inj g.headed_bytes hbytes
      obtain rfl : f = g := by
        cases f
        cases g
        cases hfg
        rfl
      exact ⟨hg, h⟩
    | bare b hb h =>
      have hsame := (f.headed_bytes.append_inj headed_bare hbytes).1
      rw [hsame] at hlong
      exact absurd hlong (by decide)
  · rintro ⟨hf, h⟩
    exact .frame f hf h

theorem bare_iff : Quiet dropped (0 :: 2 :: b :: rest) ↔
    dropped = true ∧ ¬ ParsedType b ∧ ∃ d, Quiet d (b :: rest) := by
  constructor
  · intro h
    generalize hbytes : 0 :: 2 :: b :: rest = bytes at h
    cases h with
    | nil => cases hbytes
    | byte c => cases hbytes
    | frame f hf h =>
      have hlong := f.long
      have hsame := (f.headed_bytes.append_inj headed_bare hbytes.symm).1
      rw [hsame] at hlong
      exact absurd hlong (by decide)
    | bare c hc h =>
      cases hbytes
      exact ⟨rfl, hc, _, h⟩
  · rintro ⟨rfl, hb, d, h⟩
    exact .bare b hb h

end Quiet

theorem wellFormedFeed_iff : WellFormedFeed bytes ↔ Quiet false bytes := by
  constructor
  · rintro ⟨frames, rfl, hframes⟩
    induction frames with
    | nil => exact .nil
    | cons f frames ih =>
      rw [List.flatMap_cons]
      exact .frame f (f.fits_iff.1 (hframes f (.head _))) (ih fun g hg => hframes g (.tail _ hg))
  · intro h
    generalize hd : false = d at h
    induction h with
    | nil => exact ⟨[], rfl, fun _ hf => by (cases hf)⟩
    | byte b => cases hd
    | frame f hf h ih =>
      obtain ⟨frames, rfl, hframes⟩ := ih hd
      refine ⟨f :: frames, by rw [List.flatMap_cons], fun g hg => ?_⟩
      rcases List.mem_cons.1 hg with rfl | hg
      · exact fun _ => hf
      · exact hframes g hg
    | bare b hb h ih => cases hd

/-- A buffer is taken apart in one way only. -/
theorem Quiet.not_dropped (h : Quiet false bytes) : ¬ Quiet true bytes := by
  intro h'
  obtain ⟨frames, rfl, hframes⟩ := wellFormedFeed_iff.2 h
  clear h hframes
  induction frames with
  | nil =>
    rw [List.flatMap_nil] at h'
    generalize hnil : ([] : List UInt8) = bytes at h'
    generalize hd : true = d at h'
    cases h' with
    | nil => cases hd
    | byte b => cases hnil
    | frame f hf h' =>
      have hlong := f.long
      have hlen := congrArg List.length hnil
      rw [List.length_nil, List.length_append] at hlen
      omega
    | bare b hb h' => cases hnil
  | cons f frames ih =>
    rw [List.flatMap_cons, Quiet.frame_iff] at h'
    exact ih h'.2

theorem feed_frame (f : Frame) (rest : List UInt8) (s : FeedRun) :
    feed (f.bytes ++ rest) s = feed rest (s.message f) := by
  rw [feed, List.length_append]
  exact drain_frame f rest rest.length s

theorem feed_bare_append (b : UInt8) (rest : List UInt8) (s : FeedRun) :
    feed (0 :: 2 :: b :: rest) s = feed (b :: rest) (s.dispatch b (0 :: 2 :: b :: rest) 2) := by
  have hthree : 3 ≤ ([0, 2] ++ b :: rest).length := Nat.le_add_left 3 rest.length
  exact feed_chunk headed_bare hthree s

theorem quiet_short (h : bytes.length < 2) : ∃ d, Quiet d bytes := by
  match bytes, h with
  | [], _ => exact ⟨_, .nil⟩
  | [b], _ => exact ⟨_, .byte b⟩

theorem message_error (f : Frame) (s : FeedRun) : (s.message f).handler.mErrorCount =
    s.handler.mErrorCount + UInt64.ofNat (if typeMinimum f.msgType ≤ f.length then 0 else 1) := by
  split
  · rename_i hf
    exact (FeedRun.message_sound f hf s).trans (UInt64.add_zero _).symm
  · rename_i hf
    rcases FeedRun.message_cases f s with ⟨-, callbacks, announce, he⟩ | ⟨hparsed, -⟩
    · rw [he, FeedRun.parse, if_pos (Nat.lt_of_not_le hf)]
      rfl
    · exact absurd (f.fits_iff.1 fun h => absurd h hparsed) hf

/-- A bare length counts an error exactly when the byte behind it looks like a type. -/
theorem dispatch_bare (b : UInt8) (data : List UInt8) (s : FeedRun) :
    (s.dispatch b data 2).handler.mErrorCount =
      s.handler.mErrorCount + UInt64.ofNat (if ParsedType b then 1 else 0) := by
  rcases s.dispatch_cases b data 2 with ⟨hb, callbacks, announce, he⟩ | ⟨hb, he⟩
  · have hshort : 2 < typeMinimum b := Nat.lt_of_lt_of_le (by decide) (typeMinimum_of_parsed hb)
    rw [he, FeedRun.parse, if_pos hshort, if_pos hb]
    rfl
  · rw [he, if_neg hb]
    exact (UInt64.add_zero _).symm

theorem add_errors {u : FeedRun} {e : ℕ}
    (hu : u.handler.mErrorCount = s.handler.mErrorCount + UInt64.ofNat e)
    (ht : t.handler.mErrorCount = u.handler.mErrorCount + UInt64.ofNat k) :
    t.handler.mErrorCount = s.handler.mErrorCount + UInt64.ofNat (e + k) := by
  rw [ht, hu, UInt64.add_assoc, UInt64.ofNat_add]

theorem feed_errors (h : feed bytes s = some t) : ∃ k ≤ bytes.length,
    t.handler.mErrorCount = s.handler.mErrorCount + UInt64.ofNat k ∧
      (k = 0 ↔ ∃ d, Quiet d bytes) := by
  induction hn : bytes.length using Nat.strong_induction_on generalizing bytes s with
  | _ n ih =>
    subst hn
    rcases buffer_cases bytes with hshort | ⟨htwo, hbad⟩ | rfl | ⟨c, rest, hc, rfl, hthree⟩
    · rw [feed_short hshort] at h
      obtain rfl := Option.some.inj h
      exact ⟨0, Nat.zero_le _, (UInt64.add_zero _).symm, iff_of_true rfl (quiet_short hshort)⟩
    · rw [feed_badLength htwo hbad] at h
      obtain rfl := Option.some.inj h
      refine ⟨1, Nat.le_of_succ_le htwo, rfl, iff_of_false Nat.one_ne_zero ?_⟩
      rintro ⟨d, hd⟩
      exact hd.not_badLength htwo hbad
    · rw [feed_bare] at h
      cases h
    · rcases hc.cases with ⟨f, rfl⟩ | rfl
      · have hlong := f.long
        rw [List.length_append] at ih ⊢
        rw [feed_frame] at h
        obtain ⟨k, hk, herr, hquiet⟩ := ih rest.length (by omega) h rfl
        refine ⟨_, ?_, add_errors (message_error f s) herr, ?_⟩
        · split <;> omega
        · simp only [Quiet.frame_iff, exists_and_left, ← hquiet]
          split <;> omega
      · match rest, hthree with
        | b :: rest, _ =>
          rw [List.cons_append, List.singleton_append] at ih h ⊢
          rw [feed_bare_append] at h
          obtain ⟨k, hk, herr, hquiet⟩ :=
            ih (b :: rest).length (Nat.lt_add_of_pos_right Nat.two_pos) h rfl
          refine ⟨_, ?_, add_errors (dispatch_bare b _ s) herr, ?_⟩
          · rw [List.length_cons, List.length_cons]
            split <;> omega
          · simp only [Quiet.bare_iff, exists_eq_left, ← hquiet]
            split <;> simp_all

/-- Errors are reported for all buffers but those that make the loop read behind their end, and those
of which a byte at the end or a bare length is dropped with nothing else wrong. -/
theorem reportsErrors_iff (hlen : bytes.length < 2 ^ 64) (s : FeedRun) :
    ReportsErrors bytes s ↔ ¬ BareEnd bytes ∧ ¬ Quiet true bytes := by
  have hfeed : FeedHandler.process (some bytes) bytes.length s = feed bytes s :=
    process_eq_drain bytes bytes.length s
  rw [ReportsErrors, hfeed]
  constructor
  · rintro ⟨t, ht, -, hnot⟩
    refine ⟨fun hbare => ?_, fun hdropped => ?_⟩
    · rw [(feed_eq_none_iff bytes s).2 hbare] at ht
      cases ht
    · obtain ⟨k, hpos, hk, herr⟩ := hnot fun h => (wellFormedFeed_iff.1 h).not_dropped hdropped
      obtain ⟨k', hk', herr', hquiet⟩ := feed_errors ht
      rw [hquiet.2 ⟨_, hdropped⟩, herr, UInt64.add_right_inj] at herr'
      have hzero := congrArg UInt64.toNat herr'
      rw [UInt64.toNat_ofNat', Nat.mod_eq_of_lt (hk.trans_lt hlen)] at hzero
      exact absurd hzero hpos.ne'
  · rintro ⟨hbare, hdropped⟩
    obtain ⟨t, ht⟩ := Option.ne_none_iff_exists'.1 ((feed_eq_none_iff bytes s).not.2 hbare)
    obtain ⟨k, hk, herr, hquiet⟩ := feed_errors ht
    refine ⟨t, ht, fun h => ?_, fun h => ⟨k, ?_, hk, herr⟩⟩
    · rw [herr, hquiet.2 ⟨_, wellFormedFeed_iff.1 h⟩]
      exact UInt64.add_zero _
    · apply Nat.pos_of_ne_zero
      intro hzero
      obtain ⟨d, hd⟩ := hquiet.1 hzero
      cases d with
      | false => exact h (wellFormedFeed_iff.2 hd)
      | true => exact hdropped hd

/-- A length that goes beyond the buffer is reported. -/
theorem beyond_end_reported : [0, 9, 65].length < 2 ^ 64 ∧ ReportsErrors [0, 9, 65] ⟨{}, []⟩ := by
  have hbad : BadLength [0, 9, 65] := .inr (by decide)
  exact ⟨by decide, (reportsErrors_iff (by decide) _).2
    ⟨fun h => h.not_badLength hbad, fun h => h.not_badLength (by decide) hbad⟩⟩

/-- The first byte of a message, alone. -/
theorem single_byte_dropped : ¬ ∀ (bytes : List UInt8) (s : FeedRun), bytes.length < 2 ^ 64 →
    ReportsErrors bytes s := by
  intro h
  obtain ⟨t, ht, -, hnot⟩ := h [0] ⟨{}, []⟩ (by decide)
  have hdropped : Quiet true [0] := .byte 0
  obtain ⟨k, hpos, hk, herr⟩ := hnot fun h => (wellFormedFeed_iff.1 h).not_dropped hdropped
  obtain rfl : k = 1 := Nat.le_antisymm hk hpos
  rw [process_eq_drain] at ht
  obtain rfl := Option.some.inj ((feed_short (by decide) _).symm.trans ht)
  exact absurd herr (by decide)

end Errors

end Velox
