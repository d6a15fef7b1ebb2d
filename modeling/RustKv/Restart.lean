import RustKv.TornLog

namespace RustKv.Recovery

open Text Pieces Protocol Domain FrameParser AofRoundTrip RequestReading Zset RustKv.Types Executor

section Restart

variable {S J : Type} [Host] [F64 S] [SerdeJson J] {rts : Nat → Runtime} {db : Db (Value S J)}
  {r : Recovered S J}

/-- Records that the server appends to the file after a recovery are there after
the next one: it gives the values that running their commands gives. -/
def Survives (rts : Nat → Runtime) (db : Db (Value S J)) (r : Recovered S J) (file : Bytes) : Prop :=
  ∀ q : List (LogRecord S), (∀ rec ∈ q, rec.Written ∧ rec.Readable) →
    ∀ rts' capacity, (file ++ log q).length < capacity →
    ∀ r₂, executeAll rts { r with transactionBuffer := none } (q.flatMap LogRecord.commands) = .ok r₂ →
    ∃ r₃ file', explainExecuteAofcommand rts' capacity (file ++ log q) (atOnce (file ++ log q)) db =
        some (.ok (r₃, file')) ∧
      ∀ k, observed (r₃.db.entry k) = observed (r₂.db.entry k)

theorem recovery_atOnce {fs : List Frame} (hfit : ∀ f ∈ fs, Fits f) {capacity : Nat}
    (hcap : (serializeAll fs).length < capacity) :
    explainExecuteAofcommand rts capacity (serializeAll fs) (atOnce (serializeAll fs)) db =
      match replayFrames rts (start db) fs with
      | .ok r => some (.ok (r, serializeAll fs))
      | .error e => some (.error e) := by
  have h : explainExecuteAofcommand rts capacity (serializeAll fs ++ []) (atOnce (serializeAll fs ++ []))
      db = _ := explain_atOnce hfit (.inl rfl) (by omega) (by rw [List.append_nil]; omega)
  rw [List.append_nil] at h
  rw [h]
  cases replayFrames rts (start db) fs <;> simp

theorem survives_of_complete {done : List (LogRecord S)} (hdone : ∀ rec ∈ done, rec.Written ∧ rec.Readable)
    (hrun : executeAll rts (start db) (done.flatMap LogRecord.commands) = .ok r) :
    Survives rts db r (log done) := by
  intro q hq rts' capacity hcap r₂ hr₂
  have hall : ∀ rec ∈ done ++ q, rec.Written ∧ rec.Readable := by
    intro rec hrec
    rcases List.mem_append.mp hrec with h | h
    · exact hdone rec h
    · exact hq rec h
  have hw : ∀ rec ∈ done ++ q, rec.Written := fun rec hrec => (hall rec hrec).1
  have hl : ∀ rec ∈ done ++ q, rec.Readable := fun rec hrec => (hall rec hrec).2
  have hlog : log done ++ log q = serializeAll ((done ++ q).flatMap LogRecord.frames) := by
    rw [← log_eq hw, log, log, log, List.flatMap_append]
  rw [hlog] at hcap ⊢
  have hclosed := (executeAll_ok _ hrun).1
  have hfull : executeAll rts (start db) ((done ++ q).flatMap LogRecord.commands) = .ok r₂ := by
    rw [List.flatMap_append, executeAll_append, hrun]
    rwa [recovered_eta hclosed] at hr₂
  obtain ⟨r₃, hr₃, hsame⟩ := executeAll_observed rts' _ (fun c hc => by
    obtain ⟨rec, hrec, hc⟩ := List.mem_flatMap.mp hc
    exact LogRecord.commands_parsed (hw rec hrec) (hl rec hrec) c hc) (fun _ => rfl) hfull
  refine ⟨r₃, serializeAll ((done ++ q).flatMap LogRecord.frames), ?_, fun k => (hsame k).symm⟩
  rw [recovery_atOnce (frames_fit hw) hcap, replayFrames_log hw hl rfl, hr₃]

theorem entry_set (rt : Runtime) (db : Db (Value S J)) (s : SetCommand) (hs : s.condition = none) :
    (execute rt 0 db (.set (S := S) s)).2.entry s.key = some (setEntry 0 s) := by
  rw [(Db.execute_entry rt 0 db (.set s)).2]
  simp only [execute, Context.access, setAccess, hs, Access.onCell, Function.update_self]

theorem executeCommand_set (r : Recovered S J) (s : SetCommand) (hs : s.condition = none) :
    executeCommand rts r (.set s) = .ok { r with
      db := (execute (rts r.executed.length) 0 r.db (.set s)).2
      executed := r.executed ++ [.set s] } := by
  have hreply : (execute (rts r.executed.length) 0 r.db (.set (S := S) s)).1.reply = .ok okFrame := by
    rw [(Db.execute_entry (rts r.executed.length) 0 r.db (.set s)).1]
    simp only [execute, Context.access, setAccess, hs, Access.onCell]
    rfl
  rw [executeCommand]
  revert hreply
  cases execute (rts r.executed.length) 0 r.db (.set (S := S) s) with
  | mk d db =>
      obtain ⟨reply, aof, waits⟩ := d
      rintro rfl
      rfl

/-- A SET that is appended to an open transaction waits for an EXEC, so the next
recovery gives what there was before it. -/
theorem Survives.set_hidden {gs : List Frame} (h : Survives rts db r (serializeAll gs))
    (hfit : ∀ f ∈ gs, Fits f) (hreplay : replayFrames rts (start db) gs = .ok r)
    (hopen : r.transactionBuffer ≠ none) (s : SetCommand) (hs : s.condition = none)
    (hrec : recorded 0 (.set (S := S) s) = .set s) (hl : Loggable 0 (Command.set (S := S) s)) {f : Frame}
    (hf : aofFrame 0 (Command.set (S := S) s) = some f) (hfits : Fits f) :
    observed (r.db.entry s.key) = observed (some (setEntry (S := S) (J := J) 0 s)) := by
  have hparsed : Parsed (Command.set (S := S) s) := hrec ▸ parsed_of_aofFrame hf hl hfits
  have hw : (LogRecord.single 0 (Command.set (S := S) s)).Written := ⟨hparsed, by rw [hf]; rfl⟩
  obtain ⟨r₃, file, h₃, hsame⟩ := h [.single 0 (.set s)] (by simpa using ⟨hw, hl⟩) rts
    ((serializeAll gs ++ log [.single 0 (Command.set s)]).length + 1) (Nat.lt_succ_self _)
    { r with
      db := (execute (rts r.executed.length) 0 r.db (.set s)).2
      transactionBuffer := none
      executed := r.executed ++ [.set s] } (by
    simp only [List.flatMap_cons, List.flatMap_nil, LogRecord.commands, hrec, List.cons_append,
      List.nil_append, executeAll, executeCommand_set _ s hs])
  have hbytes : serializeAll gs ++ log [.single 0 (Command.set (S := S) s)] = serializeAll (gs ++ [f]) := by
    rw [log_eq (by simpa using hw), ← serializeAll_append]
    simp [LogRecord.frames, hf]
  have hfit' : ∀ g ∈ gs ++ [f], Fits g := by
    intro g hg
    rcases List.mem_append.mp hg with h | h
    · exact hfit g h
    · rwa [List.mem_singleton.mp h]
  obtain ⟨buffer, hbuffer⟩ := Option.ne_none_iff_exists'.mp hopen
  rw [hbytes, recovery_atOnce hfit' (by simp), replayFrames_append, hreplay] at h₃
  rcases replayFrame_recorded hparsed hf rts r with ⟨-, he⟩ | ⟨hbad, -⟩
  · rw [replayCommand_recorded (by rw [hf]; rfl), hbuffer] at he
    simp only [replayFrames, he, Option.some.injEq, Except.ok.injEq, Prod.mk.injEq] at h₃
    have hk := hsame s.key
    rw [entry_set _ _ s hs, ← h₃.1] at hk
    exact hk
  · exact absurd hl hbad

/-- What is appended to an open transaction does not survive: of two SETs with
different expiry at most one gives what there was before. -/
theorem not_survives_of_open {gs : List Frame} (hfit : ∀ f ∈ gs, Fits f)
    (hreplay : replayFrames rts (start db) gs = .ok r) (hopen : r.transactionBuffer ≠ none) :
    ¬ Survives rts db r (serializeAll gs) := by
  intro h
  let key : Str := Str.ofAscii [] (by simp)
  have hnever := h.set_hidden hfit hreplay hopen ⟨key, [], none, none⟩ rfl rfl (fun e he => by cases he) rfl
    (by simp [Fits, FitsAll, ascii, key, Str.ofAscii])
  have hsoon := h.set_hidden hfit hreplay hopen ⟨key, [], some (.pxat 1), none⟩ rfl rfl
    (fun e he => by cases he; exact ⟨by decide, by decide⟩) rfl
    (by simp [Fits, FitsAll, ascii, key, Str.ofAscii, AofEncoder.expirationFrames, Decimal.decimal,
      Decimal.digitsAux])
  have hexpires := congrArg (fun o => o.map Prod.snd) (hnever.symm.trans hsoon)
  simp [observed, setEntry, calculateExpirationTimestampMs] at hexpires

/-- Writes after a recovery survive the next one exactly when the complete frames
of the torn log belong to complete records: an open MULTI is not left behind. -/
theorem survives_iff_no_open_group {records : List (LogRecord S)} (hw : ∀ rec ∈ records, rec.Written)
    {p : Bytes} (hp : p <+: log records) {capacity : Nat} (hpos : 0 < capacity)
    (hcap : p.length ≤ capacity) {file : Bytes}
    (h : explainExecuteAofcommand rts capacity p (atOnce p) db = some (.ok (r, file))) :
    Survives rts db r file ↔ ∃ done, Contained LogRecord.bytes records done p ∧
      Contained serialize (records.flatMap LogRecord.frames) (done.flatMap LogRecord.frames) p := by
  obtain ⟨done, rest, part, t, hcut⟩ := exists_cutAt hw hp
  obtain ⟨hfile, hreplay⟩ := recovered_cut hw hcut hpos hcap h
  obtain ⟨hdone, r₁, hrun, -, hsame, hopen⟩ := executed_cut hw hcut hreplay
  subst hfile
  refine ⟨fun hsurvives => ?_, ?_⟩
  · by_cases hpart : part = []
    · refine ⟨done, hcut.records, ?_⟩
      have := hcut.contained
      rwa [hpart, List.append_nil] at this
    · refine absurd hsurvives (not_survives_of_open ?_ hreplay (hopen hpart))
      obtain ⟨hs, hall, -⟩ := hcut.remaining
      intro f hf
      exact frames_fit hw f (hall ▸ List.mem_append_left hs hf)
  · rintro ⟨done', hrecords, hframes⟩
    have he := contained_unique hframes hcut.contained
    rw [contained_unique hrecords hcut.records, List.self_eq_append_right] at he
    rw [he, List.append_nil, hsame he, ← log_eq (fun rec hrec => (hdone rec hrec).1)]
    exact survives_of_complete hdone hrun

end Restart

section Sample

local instance : Host := singleShard

local instance : F64 UInt64 := wholeScore

local instance : SerdeJson Str := flatJson

theorem survives_iff_no_open_group_sample :
    Survives sampleRuntime sampleDb sampleRun (log [sampleRecord]) ↔
      ∃ done, Contained LogRecord.bytes [sampleRecord] done (log [sampleRecord]) ∧
        Contained serialize [sampleFrame] (done.flatMap LogRecord.frames) (log [sampleRecord]) := by
  have hw : ∀ rec ∈ [sampleRecord], rec.Written := fun rec hrec => sample_written rec (by simpa using hrec)
  have h : explainExecuteAofcommand sampleRuntime 512 (log [sampleRecord]) (atOnce (log [sampleRecord]))
      sampleDb = some (.ok (sampleRun, log [sampleRecord])) := by
    have hreplay : replayFrames sampleRuntime (start sampleDb)
        ([sampleRecord].flatMap LogRecord.frames) = .ok sampleRun := sample_replay
    rw [log_eq hw, recovery_atOnce (frames_fit hw) (by decide), hreplay]
  exact survives_iff_no_open_group hw (List.prefix_refl _) (by decide) (by decide) h

def sampleGroup : LogRecord UInt64 := .group 0 [.set sampleSet]

/-- A script's record is cut before its EXEC: recovery succeeds, keeps the open
MULTI, and the next write is lost at the next restart. -/
theorem open_group_not_survives :
    let p := serializeAll [AofEncoder.multiFrame, sampleFrame]
    sampleGroup.Written ∧ p <+: log [sampleGroup] ∧
      ∃ r file, explainExecuteAofcommand sampleRuntime 512 p (atOnce p) sampleDb = some (.ok (r, file)) ∧
        ¬ Survives sampleRuntime sampleDb r file := by
  intro p
  have hw : sampleGroup.Written := by
    intro c hc
    rw [List.mem_singleton.mp hc]
    exact sample_parsed
  have hfit : ∀ f ∈ [AofEncoder.multiFrame, sampleFrame], Fits f := by
    intro f hf
    refine LogRecord.frames_fit hw f ?_
    rcases List.mem_cons.mp hf with rfl | hf
    · exact List.mem_cons_self
    · rw [List.mem_singleton.mp hf]
      exact List.mem_cons_of_mem _ List.mem_cons_self
  have hreplay : replayFrames sampleRuntime (start sampleDb) [AofEncoder.multiFrame, sampleFrame] =
      .ok ⟨sampleDb, some [.set sampleSet], []⟩ := by
    have hset : CommandParser.tryFrom (S := UInt64) sampleFrame = .ok (.set sampleSet) :=
      tryFrom_aofFrame (show aofFrame 0 (Command.set sampleSet) = some sampleFrame from rfl)
        (fun e he => by cases he)
    simp only [replayFrames, replayFrame, tryFrom_multiFrame, hset, replayCommand]
    rfl
  refine ⟨hw, ?_, _, p, ?_, not_survives_of_open hfit hreplay (by simp)⟩
  · rw [log_eq (by simpa using hw)]
    exact List.prefix_append p _
  · rw [recovery_atOnce hfit (by decide), hreplay]

end Sample

end RustKv.Recovery
