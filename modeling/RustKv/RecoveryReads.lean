import RustKv.LogRecords

namespace RustKv.Recovery

open Text Protocol Domain AofRoundTrip RequestReading Zset RustKv.Types Executor

section Reads

variable {S J : Type} [Host] [F64 S] [SerdeJson J] {rts : Nat → Runtime} {db : Db (Value S J)}

theorem parsed_of_aofFrame {now : Nat} {c : Command S} {f : Frame} (hf : aofFrame now c = some f)
    (hl : Loggable now c) (hfit : Fits f) : Parsed (recorded now c) := by
  refine ⟨serialize f, f, (serialize f).length, ?_, tryFrom_aofFrame hf hl⟩
  have hp := FrameRoundTrip.parseFrame_append hfit []
  rwa [List.append_nil] at hp

theorem explain_isSome (rts : Nat → Runtime) (capacity : Nat) (file : Bytes) (reads : List Nat)
    (db : Db (Value S J)) (hpos : ∀ n ∈ reads, 0 < n) (hsum : reads.sum = file.length)
    (hcap : file.length < capacity) :
    ∃ result, explainExecuteAofcommand rts capacity file reads db = some result := by
  obtain ⟨out, hout⟩ := readLoop_isSome reads (start db) hpos hsum
    (show ([] : Bytes).length + file.length < capacity by rw [List.length_nil]; omega)
  exact ⟨_, Option.map_eq_some_iff.mpr ⟨out, hout, rfl⟩⟩

theorem recovery_onFrames {capacity : Nat} (hpos : 0 < capacity) {fs : List Frame}
    (hfit : ∀ f ∈ fs, Fits f) {r : Recovered S J} (hrun : replayFrames rts (start db) fs = .ok r)
    {reads : List Nat} {result : Except AofError (Recovered S J × Bytes)}
    (h : explainExecuteAofcommand rts capacity (serializeAll fs) reads db = some result) :
    (OnFrames fs reads → result = .ok (r, serializeAll fs)) ∧
      (∀ r' file, result = .ok (r', file) → file.length = (serializeAll fs).length →
        OnFrames fs reads) := by
  obtain ⟨out, hloop, hout⟩ := Option.map_eq_some_iff.mp h
  refine ⟨fun hreads => ?_, fun r' file hok hlen => ?_⟩
  · have hr := readLoop_onFrames hpos reads hfit hreads hloop
    rw [hrun] at hr
    subst hr
    exact hout.symm
  · subst hok
    cases out with
    | error e => cases hout
    | ok out =>
        obtain ⟨r₁, tail⟩ := out
        by_cases htail : tail = []
        · subst htail
          exact onFrames_of_readLoop reads hfit hloop
        · have htail' := List.length_pos_iff.mpr htail
          simp only [htail', if_true, Except.ok.injEq, Prod.mk.injEq] at hout
          rw [← hout.2, List.length_take] at hlen
          have hnil : serializeAll fs = [] := List.length_eq_zero_iff.mp (by omega)
          rw [serializeAll_eq_nil hnil] at hloop ⊢
          cases reads with
          | nil => trivial
          | cons n reads =>
              have hcap : ¬ 0 = capacity := by omega
              have hn : ¬ (0 < n ∧ n ≤ capacity - 0 ∧ n ≤ 0) := by omega
              simp only [readLoop, serializeAll, List.length_nil, hcap, hn, if_false] at hloop
              cases hloop

/-- Recovery replays a log of complete records as it stands when every call of
read returns at the end of a frame, and only then. -/
theorem recovery_exact_iff_onFrames {capacity : Nat} (hpos : 0 < capacity)
    {records : List (LogRecord S)} (hw : ∀ rec ∈ records, rec.Written)
    (hl : ∀ rec ∈ records, rec.Readable) {r : Recovered S J}
    (hrun : executeAll rts (start db) (records.flatMap LogRecord.commands) = .ok r)
    {reads : List Nat} {result : Except AofError (Recovered S J × Bytes)}
    (h : explainExecuteAofcommand rts capacity (log records) reads db = some result) :
    (∃ r' file, result = .ok (r', file) ∧ r'.executed = records.flatMap LogRecord.commands ∧
      r'.db = r.db ∧ file.length = (log records).length) ↔
    OnFrames (records.flatMap LogRecord.frames) reads := by
  rw [log_eq hw] at h ⊢
  have hframes : replayFrames rts (start db) (records.flatMap LogRecord.frames) = .ok r :=
    (replayFrames_log hw hl rfl).trans hrun
  obtain ⟨hexact, honly⟩ := recovery_onFrames hpos (frames_fit hw) hframes h
  refine ⟨fun ⟨r', file, hok, _, _, hlen⟩ => honly r' file hok hlen, fun hreads => ?_⟩
  exact ⟨r, _, hexact hreads, (executeAll_ok _ hrun).2, rfl, rfl⟩

end Reads

section Sample

local instance : Host := singleShard

local instance : F64 UInt64 := wholeScore

local instance : SerdeJson Str := flatJson

def sampleKey : Str := Str.ofAscii (ascii ['k']) ascii_k

/-- A log of two records `SET k v`, of 27 bytes each. -/
def sampleSet : SetCommand := ⟨sampleKey, ascii ['v'], none, none⟩

def sampleRecord : LogRecord UInt64 := .single 0 (.set sampleSet)

def sampleFrame : Frame :=
  .array [.bulk (ascii ['S', 'E', 'T']), .bulk sampleKey.bytes, .bulk (ascii ['v'])]

def sampleDb : Db (Value UInt64 Str) := Db.new .lru

def sampleRuntime : Nat → Runtime := fun _ => ⟨[], 0, 0⟩

theorem sample_parsed : Parsed (Command.set (S := UInt64) sampleSet) :=
  parsed_of_aofFrame (show aofFrame 0 (Command.set sampleSet) = some sampleFrame from rfl)
    (fun e he => by cases he) (by simp [sampleFrame, Fits, FitsAll, ascii, sampleKey, Str.ofAscii])

theorem sample_written : ∀ rec ∈ [sampleRecord, sampleRecord], rec.Written := by
  have h : sampleRecord.Written := ⟨sample_parsed, rfl⟩
  simp [h]

theorem sample_readable : ∀ rec ∈ [sampleRecord, sampleRecord], rec.Readable := by
  have h : sampleRecord.Readable := fun e he => by cases he
  simp [h]

theorem recovery_exact_iff_onFrames_sample :
    ∃ result, explainExecuteAofcommand sampleRuntime 512 (log [sampleRecord, sampleRecord]) [27, 27]
        sampleDb = some result ∧
      ((∃ r' file, result = .ok (r', file) ∧
        r'.executed = [sampleRecord, sampleRecord].flatMap LogRecord.commands ∧
        r'.db = (execute (sampleRuntime 1) 0 (execute (sampleRuntime 0) 0 sampleDb
          (.set sampleSet)).2 (.set sampleSet)).2 ∧
        file.length = (log [sampleRecord, sampleRecord]).length) ↔
      OnFrames ([sampleRecord, sampleRecord].flatMap LogRecord.frames) [27, 27]) := by
  obtain ⟨result, h⟩ := explain_isSome sampleRuntime 512 (log [sampleRecord, sampleRecord]) [27, 27]
    sampleDb (by decide) (by decide) (by decide)
  exact ⟨result, h, recovery_exact_iff_onFrames (by decide) sample_written sample_readable rfl h⟩

/-- A read that returns one byte of the second record costs that record a byte of
the file. -/
theorem split_read_not_exact :
    ∃ result, explainExecuteAofcommand sampleRuntime 512 (log [sampleRecord, sampleRecord]) [28, 26]
        sampleDb = some result ∧
      ¬ ∃ r' file, result = .ok (r', file) ∧
        r'.executed = [sampleRecord, sampleRecord].flatMap LogRecord.commands ∧
        file.length = (log [sampleRecord, sampleRecord]).length := by
  obtain ⟨result, h⟩ := explain_isSome sampleRuntime 512 (log [sampleRecord, sampleRecord]) [28, 26]
    sampleDb (by decide) (by decide) (by decide)
  refine ⟨result, h, ?_⟩
  rintro ⟨r', file, hok, -, hlen⟩
  rw [log_eq sample_written] at h hlen
  have hrun : replayFrames sampleRuntime (start sampleDb)
      ([sampleRecord, sampleRecord].flatMap LogRecord.frames) = .ok _ :=
    (replayFrames_log sample_written sample_readable rfl).trans rfl
  obtain ⟨gs, hs, hgs, hn, -⟩ :=
    (recovery_onFrames (by decide) (frames_fit sample_written) hrun h).2 r' file hok hlen
  have hlength : (serialize sampleFrame).length = 27 := by decide
  have hframes : [sampleRecord, sampleRecord].flatMap LogRecord.frames = [sampleFrame, sampleFrame] := rfl
  rw [hframes] at hgs
  rcases gs with _ | ⟨g, _ | ⟨g', gs⟩⟩
  · cases hn
  · simp only [List.cons_append, List.cons.injEq] at hgs
    rw [← hgs.1, serializeAll, serializeAll, List.append_nil, hlength] at hn
    cases hn
  · simp only [List.cons_append, List.cons.injEq] at hgs
    rw [← hgs.1, ← hgs.2.1, serializeAll, serializeAll, List.length_append, List.length_append,
      hlength] at hn
    omega

end Sample

end RustKv.Recovery
