import RustKv.Chunking
import RustKv.LogRecords

namespace RustKv.Replication

open Text Protocol Domain FrameParser FrameRoundTrip FrameGrammar CommandParser Connection

section Detection

/-- The scan of UTF-8 stops in front of bytes beyond ASCII, which it reports: as many as
it says, or all that is left where the text only ends too early. -/
def StopsAt (i : Nat) (b : Bytes) (e : Utf8Error) : Prop :=
  ∃ v bad rest, b = v ++ (bad ++ rest) ∧ e.validUpTo = i + v.length ∧ bad ≠ [] ∧
    (∀ x ∈ bad, 0x80 ≤ x) ∧
    match e.errorLen with
    | some n => bad.length = n
    | none => rest = []

theorem StopsAt.behind {i : Nat} {b : Bytes} {e : Utf8Error} (v : Bytes)
    (h : StopsAt (i + v.length) b e) : StopsAt i (v ++ b) e := by
  obtain ⟨w, bad, rest, rfl, hvalid, hrest⟩ := h
  refine ⟨v ++ w, bad, rest, (List.append_assoc ..).symm, ?_, hrest⟩
  rw [hvalid, List.length_append]
  omega

theorem stopsAt_bad {i : Nat} (bad rest : Bytes) (hne : bad ≠ []) (h : ∀ x ∈ bad, 0x80 ≤ x) :
    StopsAt i (bad ++ rest) ⟨i, some bad.length⟩ :=
  ⟨[], bad, rest, rfl, rfl, hne, h, rfl⟩

theorem stopsAt_end {i : Nat} (bad : Bytes) (hne : bad ≠ []) (h : ∀ x ∈ bad, 0x80 ≤ x) :
    StopsAt i bad ⟨i, none⟩ :=
  ⟨[], bad, [], (List.append_nil _).symm, rfl, hne, h, rfl⟩

theorem isContinuation_high {c : UInt8} (h : isContinuation c = true) : 0x80 ≤ c := by
  rw [isContinuation, Bool.and_eq_true, decide_eq_true_eq] at h
  exact h.1

theorem between_high {lo hi c : UInt8} (hlo : 0x80 ≤ lo) (h : (lo ≤ c && c ≤ hi) = true) : 0x80 ≤ c := by
  rw [Bool.and_eq_true, decide_eq_true_eq] at h
  exact le_trans hlo h.1

theorem threeByteSecond_high {b c : UInt8} (h : threeByteSecond b c = true) : 0x80 ≤ c := by
  unfold threeByteSecond at h
  split at h
  · exact between_high (by decide) h
  · split at h
    · exact between_high (by decide) h
    · exact isContinuation_high h

theorem fourByteSecond_high {b c : UInt8} (h : fourByteSecond b c = true) : 0x80 ≤ c := by
  unfold fourByteSecond at h
  split at h
  · exact between_high (by decide) h
  · split at h
    · exact between_high (by decide) h
    · exact isContinuation_high h

theorem stopsAt_one {i : Nat} {b : UInt8} (rest : Bytes) (hb : ¬ b < 0x80) :
    StopsAt i (b :: rest) ⟨i, some 1⟩ :=
  stopsAt_bad [b] rest (by simp) (by simpa using hb)

theorem stopsAt_two {i : Nat} {b c : UInt8} (rest : Bytes) (hb : ¬ b < 0x80) (hc : 0x80 ≤ c) :
    StopsAt i (b :: c :: rest) ⟨i, some 2⟩ :=
  stopsAt_bad [b, c] rest (by simp) (by simpa using ⟨not_lt.mp hb, hc⟩)

theorem utf8ErrorFrom_stopsAt {i : Nat} {b : Bytes} {e : Utf8Error} (h : utf8ErrorFrom i b = some e) :
    StopsAt i b e := by
  have hnot {x : Bool} (hx : ¬ (!x) = true) : x = true := by simpa using hx
  fun_induction utf8ErrorFrom i b with
  | case1 => cases h
  | case2 i b bs _ ih => exact StopsAt.behind [b] (ih h)
  | case4 i b _ _ c cs _ ih => exact StopsAt.behind [b, c] (ih h)
  | case11 i b _ _ _ c d ds _ _ ih => exact StopsAt.behind [b, c, d] (ih h)
  | case21 i b _ _ _ _ c d x es _ _ _ ih => exact StopsAt.behind [b, c, d, x] (ih h)
  -- The lead byte alone, or with the bytes behind it that can follow it.
  | case3 i b hb | case6 i b hb | case12 i b hb =>
      cases h
      exact stopsAt_end [b] (by simp) (by simpa using hb)
  | case7 i b hb _ _ c hc =>
      cases h
      exact stopsAt_end [b, c] (by simp) (by simpa using ⟨not_lt.mp hb, threeByteSecond_high hc⟩)
  | case13 i b hb _ _ _ c hc =>
      cases h
      exact stopsAt_end [b, c] (by simp) (by simpa using ⟨not_lt.mp hb, fourByteSecond_high hc⟩)
  | case17 i b hb _ _ _ c d hc hd =>
      cases h
      exact stopsAt_end [b, c, d] (by simp) (by
        simpa using ⟨not_lt.mp hb, fourByteSecond_high (hnot hc), isContinuation_high (hnot hd)⟩)
  | case5 i b hb | case8 i b hb | case9 i b hb | case14 i b hb | case15 i b hb | case18 i b hb
  | case22 i b bs hb =>
      cases h
      exact stopsAt_one _ hb
  | case10 i b hb _ _ c d ds hc =>
      cases h
      exact stopsAt_two _ hb (threeByteSecond_high (hnot hc))
  | case16 i b hb _ _ _ c d hc =>
      cases h
      exact stopsAt_two _ hb (fourByteSecond_high (hnot hc))
  | case19 i b hb _ _ _ c d x es hc =>
      cases h
      exact stopsAt_two _ hb (fourByteSecond_high (hnot hc))
  | case20 i b hb _ _ _ c d x es hc hd =>
      cases h
      exact stopsAt_bad [b, c, d] (x :: es) (by simp) (by
        simpa using ⟨not_lt.mp hb, fourByteSecond_high (hnot hc), isContinuation_high (hnot hd)⟩)

theorem infix_of_high {p : Bytes} (hp : ∀ x ∈ p, x < 0x80) {bad : Bytes} (hne : bad ≠ [])
    (hbad : ∀ x ∈ bad, 0x80 ≤ x) {u v : Bytes} (h : p <:+: u ++ (bad ++ v)) :
    p <:+: u ∨ p <:+: v := by
  induction bad generalizing u with
  | nil => exact absurd rfl hne
  | cons x bad ih =>
      have hx : x ∉ p := fun hmem => absurd (hp x hmem) (not_lt.mpr (hbad x (by simp)))
      rcases infix_of_append_cons hx h with hu | hrest
      · exact .inl hu
      · by_cases hnil : bad = []
        · subst hnil
          exact .inr hrest
        · rcases ih hnil (fun y hy => hbad y (List.mem_cons_of_mem x hy)) (u := []) hrest with hu | hv
          · exact .inl (hu.trans List.nil_infix)
          · exact .inr hv

/-- Replacing ill-formed sequences loses no ASCII text. -/
theorem lossyFrom_contains {p : Bytes} (hne : p ≠ []) (hp : ∀ x ∈ p, x < 0x80) (fuel : Nat) (b : Bytes)
    (hfuel : b.length ≤ fuel) (h : p <:+: b) : p <:+: lossyFrom fuel b := by
  induction fuel generalizing b with
  | zero =>
      rw [List.length_eq_zero_iff.mp (Nat.le_zero.mp hfuel)] at h
      exact absurd (List.infix_nil.mp h) hne
  | succ fuel ih =>
      rw [lossyFrom]
      cases he : utf8Error b with
      | none => exact h
      | some e =>
          obtain ⟨v, bad, rest, rfl, hvalid, hbad, hhigh, hlen⟩ := utf8ErrorFrom_stopsAt he
          rw [Nat.zero_add] at hvalid
          simp only [hvalid, List.take_left]
          rcases infix_of_high hp hbad hhigh h with hv | hrest
          · rw [List.append_assoc]
            exact hv.trans (List.prefix_append _ _).isInfix
          · apply List.IsInfix.trans _ (List.suffix_append _ _).isInfix
            cases hl : e.errorLen with
            | none =>
                simp only [hl] at hlen
                rw [hlen] at hrest
                exact absurd (List.infix_nil.mp hrest) hne
            | some n =>
                simp only [hl] at hlen
                change p <:+: lossyFrom fuel ((v ++ (bad ++ rest)).drop (v.length + n))
                rw [← hlen, ← List.length_append, ← List.append_assoc, List.drop_left]
                apply ih rest _ hrest
                have := List.length_pos_iff.mpr hbad
                simp only [List.length_append] at hfuel
                omega

theorem isPsyncRequest_iff (b : Bytes) : isPsyncRequest b = false ↔ NoPsync b := by
  constructor
  · intro h
    simp only [isPsyncRequest, Bool.or_eq_false_iff, decide_eq_false_iff_not] at h
    exact ⟨fun hp => h.1 (lossyFrom_contains (by decide) (by decide) _ b (le_refl _) hp),
      fun hp => h.2 (lossyFrom_contains (by decide) (by decide) _ b (le_refl _) hp)⟩
  · exact NoPsync.not_request

variable {W S : Type} [Host] [F64 S] (exec : W → Command S → Except KvError Frame × W)

theorem explainLoop_suffix (buf : Bytes) (fuel : Nat) (b : Batch W S) :
    (explainLoop exec buf fuel b).2.1 <:+ buf := by
  induction fuel generalizing b with
  | zero => exact List.drop_suffix _ _
  | succ fuel ih =>
      rw [explainLoop]
      split
      · split
        · split
          · exact ih _
          · exact List.suffix_refl buf
        · exact List.drop_suffix _ _
      · exact List.drop_suffix _ _
      · exact List.drop_suffix _ _

theorem handle_suffix (c : Conn W S) (chunk : Bytes) :
    (c.handle exec (.gotData chunk)).buf <:+ c.buf ++ chunk := by
  rw [Conn.handle]
  split
  · exact List.suffix_refl _
  · have hs := explainLoop_suffix exec (c.buf ++ chunk) (c.buf ++ chunk).length
      ⟨c.buf ++ chunk, 0, [], [], c.state⟩
    rw [← explainExecuteCommand] at hs
    split
    · next he =>
      rw [he] at hs
      exact hs
    · exact List.nil_suffix

theorem handle_phase (c : Conn W S) (hc : c.phase = .serving) (chunk : Bytes)
    (h : NoPsync (c.buf ++ chunk)) : (c.handle exec (.gotData chunk)).phase = .serving := by
  rw [Conn.handle, if_neg (by rw [h.not_request]; decide)]
  split <;> exact hc

/-- As long as the stream does not mention PSYNC the connection serves requests. -/
theorem serves_of_noPsync (c : Conn W S) (chunks : List Bytes) (hc : c.phase = .serving)
    (h : NoPsync (c.buf ++ chunks.flatten)) :
    (handleConnection exec c (chunks.map .gotData)).phase = .serving := by
  induction chunks generalizing c with
  | nil => exact hc
  | cons chunk chunks ih =>
      rw [List.flatten_cons, ← List.append_assoc] at h
      have hphase := handle_phase exec c hc chunk (h.of_infix (List.prefix_append _ _).isInfix)
      rw [List.map_cons, handleConnection, hc]
      apply ih _ hphase
      apply h.of_infix
      obtain ⟨t, ht⟩ := handle_suffix exec c chunk
      exact ⟨t, [], by rw [← ht]; simp⟩

/-- A connection is handed over to the replication hub in no chunking of its stream exactly
when the stream mentions PSYNC nowhere, in keys, values and scripts either. -/
theorem never_replicates_iff (w : W) (stream : Bytes) :
    (∀ chunks : List Bytes, chunks.flatten = stream →
      (handleConnection exec (Conn.new w) (chunks.map .gotData)).phase ≠ .replicating) ↔
        NoPsync stream := by
  constructor
  · intro h
    have hwhole := h [stream] (by simp)
    rw [← isPsyncRequest_iff, Bool.eq_false_iff]
    intro hreq
    apply hwhole
    change ((Conn.new w).handle exec (.gotData stream)).phase = .replicating
    rw [Conn.handle, if_pos (show isPsyncRequest ((Conn.new w : Conn W S).buf ++ stream) = true from hreq)]
  · intro h chunks hchunks
    rw [serves_of_noPsync exec (Conn.new w) chunks rfl (by rw [hchunks]; exact h)]
    decide

end Detection

section Feed

open Recovery

variable {W S : Type}

/-- What handle_slave_psync writes before the records: FULLRESYNC, an id of forty zeros
and an offset of zero. -/
def okResp : Bytes :=
  ascii ['+', 'F', 'U', 'L', 'L', 'R', 'E', 'S', 'Y', 'N', 'C', ' '] ++ List.replicate 40 48 ++
    ascii [' ', '0'] ++ crlf

/-- The bytes handle_slave_psync writes to the socket for the messages of the hub. -/
def handleSlavePsync (msgs : List Bytes) : Bytes := okResp ++ msgs.flatten

/-- The buffer of the slave, the state its commands work on, and the commands it has
executed. -/
structure Slave (W S : Type) where
  buf : Bytes
  state : W
  executed : List (Command S)

def Slave.new (state : W) : Slave W S := ⟨[], state, []⟩

variable [Host] [F64 S] (exec : W → Command S → Except KvError Frame × W)

/-- The loop over the frames of the buffer; it ends at an incomplete frame and at an error
alike. `exec` is execute_command_normal. Every round uses up a byte, so `fuel` may be the
length of the buffer. -/
def replayBuffer : Nat → Slave W S → Slave W S
  | 0, s => s
  | fuel + 1, s =>
      match parseFrame s.buf with
      | .ok (some (frame, size)) =>
          match tryFrom frame with
          | .ok cmd => replayBuffer fuel {
              buf := s.buf.drop size
              state := (exec s.state cmd).2
              executed := s.executed ++ [cmd] }
          | .error _ => replayBuffer fuel { s with buf := s.buf.drop size }
      | _ => s

/-- The stream loop of start_slave_replication, over what its reads return. -/
def streamLoop : Slave W S → List Bytes → Slave W S
  | s, [] => s
  | s, chunk :: chunks =>
      let buf := s.buf ++ chunk
      streamLoop (replayBuffer exec buf.length { s with buf := buf }) chunks

/-- The slave has executed the commands in the records, in order, and has read all of the
stream. -/
def Applied (records : List (LogRecord S)) (s : Slave W S) : Prop :=
  (records.flatMap LogRecord.frames).map tryFrom = s.executed.map .ok ∧ s.buf = []

omit [Host] [F64 S] in
/-- The request parser knows no simple strings. -/
theorem parseFrame_plus (b : Bytes) :
    parseFrame (43 :: b) = .error (.protocolError "无效的 Frame 类型前缀") := by
  rw [parseFrame, List.length_cons, parseFrameFromCursor, if_neg (by decide), if_neg (by decide)]

theorem replayBuffer_stuck (fuel : Nat) (s : Slave W S) {rest : Bytes} (h : s.buf <+: 43 :: rest) :
    replayBuffer exec fuel s = s := by
  cases fuel with
  | zero => rfl
  | succ fuel =>
      rw [replayBuffer]
      cases hb : s.buf with
      | nil => rfl
      | cons x b =>
          rw [hb] at h
          obtain ⟨rfl, -⟩ := List.cons_prefix_cons.mp h
          simp only [parseFrame_plus]

theorem streamLoop_stuck (s : Slave W S) (chunks : List Bytes) {rest : Bytes}
    (h : s.buf ++ chunks.flatten = 43 :: rest) :
    streamLoop exec s chunks = { s with buf := 43 :: rest } := by
  induction chunks generalizing s with
  | nil =>
      rw [List.flatten_nil, List.append_nil] at h
      rw [streamLoop, ← h]
  | cons chunk chunks ih =>
      rw [List.flatten_cons, ← List.append_assoc] at h
      have hprefix : s.buf ++ chunk <+: 43 :: rest := ⟨_, h⟩
      simp only [streamLoop]
      rw [replayBuffer_stuck exec _ _ hprefix]
      exact ih _ h

omit [Host] [F64 S] in
theorem okResp_eq : ∃ rest, okResp = 43 :: rest := ⟨_, rfl⟩

/-- The reply to the handshake stops the slave: whatever records follow it, in whatever
chunks, none of them is applied. -/
theorem never_applied (w : W) (records : List (LogRecord S)) (chunks : List Bytes)
    (h : chunks.flatten = handleSlavePsync (records.map LogRecord.bytes)) :
    ¬ Applied records (streamLoop exec (Slave.new w) chunks) := by
  rintro ⟨-, hbuf⟩
  obtain ⟨rest, hrest⟩ := okResp_eq
  rw [handleSlavePsync, hrest, List.cons_append] at h
  rw [streamLoop_stuck exec (Slave.new w) chunks h] at hbuf
  cases hbuf

end Feed

section Sample

open Recovery Zset RustKv.Types Executor

attribute [local instance] singleShard wholeScore flatJson

/-- SET k PSYNC. -/
def psyncValue : Frame := request [ascii ['S', 'E', 'T'], ascii ['k'], upperPsync]

theorem psyncValue_derives : DerivesAll [psyncValue] (serialize psyncValue) := by
  have h := derivesAll_serialize [psyncValue] (by
    simp [psyncValue, request, Fits, FitsAll, ascii, upperPsync])
  rwa [serializeAll, serializeAll, List.append_nil] at h

theorem psync_value_replicates :
    DerivesAll [psyncValue] (serialize psyncValue) ∧
    (∃ c, tryFrom psyncValue = .ok (Command.set (S := UInt64) c)) ∧
    ∃ chunks : List Bytes, chunks.flatten = serialize psyncValue ∧
      (handleConnection executeAlone (Conn.new Connection.emptyDb) (chunks.map .gotData)).phase = .replicating := by
  refine ⟨psyncValue_derives, ⟨_, rfl⟩, [serialize psyncValue], by simp, ?_⟩
  decide +kernel

/-- The record of SET k v. -/
def setRecord : LogRecord UInt64 :=
  .single 0 (.set ⟨Str.ofAscii (ascii ['k']) ascii_k, ascii ['v'], none, none⟩)

/-- Two reads that return the handshake and the record. -/
def twoReads : List Bytes := [okResp, setRecord.bytes]

theorem set_record_not_applied :
    twoReads.flatten = handleSlavePsync [setRecord.bytes] ∧
      (streamLoop executeAlone (Slave.new Connection.emptyDb) twoReads).executed = [] ∧
      ¬ Applied [setRecord] (streamLoop executeAlone (Slave.new Connection.emptyDb) twoReads) := by
  have hflat : twoReads.flatten = handleSlavePsync [setRecord.bytes] := by
    simp [twoReads, handleSlavePsync]
  obtain ⟨rest, hrest⟩ := okResp_eq
  have hstuck := streamLoop_stuck executeAlone (Slave.new Connection.emptyDb) twoReads
    (show [] ++ twoReads.flatten = 43 :: (rest ++ [setRecord.bytes].flatten) by
      rw [List.nil_append, hflat, handleSlavePsync, hrest, List.cons_append])
  refine ⟨hflat, by rw [hstuck]; rfl, ?_⟩
  rintro ⟨-, hbuf⟩
  rw [hstuck] at hbuf
  cases hbuf

theorem never_applied_sample :
    twoReads.flatten = handleSlavePsync [setRecord.bytes] ∧
      ¬ Applied [setRecord] (streamLoop executeAlone (Slave.new Connection.emptyDb) twoReads) := by
  have hflat : twoReads.flatten = handleSlavePsync [setRecord.bytes] := by
    simp [twoReads, handleSlavePsync]
  exact ⟨hflat, never_applied executeAlone Connection.emptyDb [setRecord] twoReads hflat⟩

end Sample

end RustKv.Replication
