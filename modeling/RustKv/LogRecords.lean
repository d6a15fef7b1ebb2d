import RustKv.Cells
import RustKv.RecoveryFrames

namespace RustKv.Recovery

open Text Protocol Domain CommandParser AofEncoder AofRoundTrip RequestReading Zset RustKv.Types Executor

variable {S J : Type} [F64 S]

/-- One message on the AOF channel: the record of a command, or of the commands
of a script. -/
inductive LogRecord (S : Type)
  | single (now : Nat) (c : Command S)
  | group (now : Nat) (cmds : List (Command S))

namespace LogRecord

def bytes : LogRecord S → Bytes
  | .single now c => (encodeAofCommand now c).getD []
  | .group now cmds => (encodeAofCommand now (.multiGroup cmds)).getD []

def frames : LogRecord S → List Frame
  | .single now c => (aofFrame now c).toList
  | .group now cmds => multiFrame :: cmds.filterMap (aofFrame now) ++ [execFrame]

/-- The commands of a script that leave a frame, as they are read back. -/
def inGroup (now : Nat) (cmds : List (Command S)) : List (Command S) :=
  (cmds.filter (fun c => (aofFrame now c).isSome)).map (recorded now)

def commands : LogRecord S → List (Command S)
  | .single now c => [recorded now c]
  | .group now cmds => inGroup now cmds

/-- The deadlines of the record are in the range in which they are read back. -/
def Readable : LogRecord S → Prop
  | .single now c => Loggable now c
  | .group now cmds => ∀ c ∈ cmds, Loggable now c

end LogRecord

theorem encodeAofCommand_eq {now : Nat} {c : Command S} {f : Frame} (h : aofFrame now c = some f) :
    encodeAofCommand now c = some (serialize f) := by
  have hg := encodeInGroup_eq now c
  rw [h] at hg
  cases c with
  | set | mset | lpush | lpop | hset | hdel | jsonSet | zadd | zrem => exact congrArg some hg
  | get | ping | unimplement | eval | blpop | hget | mget | multi | exec | multiGroup | jsonGet
  | zscore | zrank | zrange => cases h

def log (records : List (LogRecord S)) : Bytes := records.flatMap LogRecord.bytes

theorem multiFrame_fits : Fits multiFrame := by
  simp [multiFrame, Fits, FitsAll, ascii]

theorem execFrame_fits : Fits execFrame := by
  simp [execFrame, Fits, FitsAll, ascii]

variable [Host]

/-- What the server writes: records of write commands it has read from clients. -/
def LogRecord.Written : LogRecord S → Prop
  | .single now c => Parsed c ∧ (aofFrame now c).isSome
  | .group _ cmds => ∀ c ∈ cmds, Parsed c

omit [Host] in
theorem group_bytes_eq (now : Nat) (cmds : List (Command S)) :
    (LogRecord.group now cmds).bytes = serializeAll (LogRecord.group now cmds).frames := by
  have hbody : cmds.flatMap (encodeInGroup now) = serializeAll (cmds.filterMap (aofFrame now)) := by
    induction cmds with
    | nil => rfl
    | cons c cmds ih =>
        rw [List.flatMap_cons, List.filterMap_cons, encodeInGroup_eq, ih]
        cases aofFrame now c with
        | none => rfl
        | some f => rfl
  simp only [LogRecord.bytes, LogRecord.frames, encodeAofCommand, hbody, Option.getD_some,
    List.cons_append, serializeAll, serializeAll_append, List.append_nil, List.append_assoc]

theorem LogRecord.bytes_eq {rec : LogRecord S} (h : rec.Written) :
    rec.bytes = serializeAll rec.frames := by
  cases rec with
  | single now c =>
      obtain ⟨f, hf⟩ := Option.isSome_iff_exists.mp h.2
      simp [LogRecord.bytes, LogRecord.frames, encodeAofCommand_eq hf, hf, serializeAll]
  | group now cmds => exact group_bytes_eq now cmds

theorem log_eq {records : List (LogRecord S)} (h : ∀ rec ∈ records, rec.Written) :
    log records = serializeAll (records.flatMap LogRecord.frames) := by
  induction records with
  | nil => rfl
  | cons rec records ih =>
      have ih' := ih (fun x hx => h x (List.mem_cons_of_mem rec hx))
      rw [log] at ih' ⊢
      rw [List.flatMap_cons, List.flatMap_cons, serializeAll_append, ih',
        LogRecord.bytes_eq (h rec (by simp))]

theorem tryFrom_multiFrame : tryFrom (S := S) multiFrame = .ok .multi := by
  rw [multiFrame, tryFrom_name _ (by decide) (by decide)]
  simp +decide only [dispatch, ↓reduceIte]

theorem tryFrom_execFrame : tryFrom (S := S) execFrame = .ok .exec := by
  rw [execFrame, tryFrom_name _ (by decide) (by decide)]
  simp +decide only [dispatch, ↓reduceIte]

theorem LogRecord.frames_fit {rec : LogRecord S} (h : rec.Written) : ∀ f ∈ rec.frames, Fits f := by
  cases rec with
  | single now c =>
      intro f hf
      exact Parsed.fits h.1 (Option.mem_toList.mp hf)
  | group now cmds =>
      intro f hf
      simp only [LogRecord.frames, List.cons_append, List.mem_cons, List.mem_append,
        List.mem_filterMap, List.not_mem_nil, or_false] at hf
      rcases hf with rfl | ⟨c, hc, hf⟩ | rfl
      · exact multiFrame_fits
      · exact Parsed.fits (h c hc) hf
      · exact execFrame_fits

theorem frames_fit {records : List (LogRecord S)} (h : ∀ rec ∈ records, rec.Written) :
    ∀ f ∈ records.flatMap LogRecord.frames, Fits f := by
  intro f hf
  obtain ⟨rec, hrec, hf⟩ := List.mem_flatMap.mp hf
  exact LogRecord.frames_fit (h rec hrec) f hf

variable [SerdeJson J] {rts : Nat → Runtime} {r r' : Recovered S J}

theorem executeCommand_ok {c : Command S} (h : executeCommand rts r c = .ok r') :
    r'.transactionBuffer = r.transactionBuffer ∧ r'.executed = r.executed ++ [c] := by
  unfold executeCommand at h
  split at h
  · cases h
    exact ⟨rfl, rfl⟩
  · cases h

theorem executeCommand_entry (r : Recovered S J) {c : Command S} {frame : Frame}
    (h : (execute (rts r.executed.length) 0 r.db.entry c).1.reply = .ok frame) :
    ∃ r', executeCommand rts r c = .ok r' ∧
      r'.db.entry = (execute (rts r.executed.length) 0 r.db.entry c).2 := by
  obtain ⟨hdone, hentry⟩ := Db.execute_entry (rts r.executed.length) 0 r.db c
  rw [← hdone] at h
  rw [← hentry]
  unfold executeCommand
  revert h
  cases execute (rts r.executed.length) 0 r.db c with
  | mk done db =>
      obtain ⟨reply, aof, waits⟩ := done
      rintro rfl
      exact ⟨_, rfl, rfl⟩

theorem executeAll_ok (cs : List (Command S)) (h : executeAll rts r cs = .ok r') :
    r'.transactionBuffer = r.transactionBuffer ∧ r'.executed = r.executed ++ cs := by
  induction cs generalizing r with
  | nil =>
      cases h
      exact ⟨rfl, (List.append_nil _).symm⟩
  | cons c cs ih =>
      simp only [executeAll] at h
      cases hc : executeCommand rts r c with
      | error e => simp [hc] at h
      | ok r₁ =>
          rw [hc] at h
          obtain ⟨hb, he⟩ := executeCommand_ok hc
          obtain ⟨hb', he'⟩ := ih h
          exact ⟨hb'.trans hb, by rw [he', he, List.append_assoc]; rfl⟩

theorem executeAll_append (rts : Nat → Runtime) (r : Recovered S J) (cs ds : List (Command S)) :
    executeAll rts r (cs ++ ds) =
      match executeAll rts r cs with
      | .ok r => executeAll rts r ds
      | .error e => .error e := by
  induction cs generalizing r with
  | nil => rfl
  | cons c cs ih =>
      simp only [List.cons_append, executeAll]
      cases executeCommand rts r c with
      | ok r => exact ih r
      | error e => rfl

theorem replayCommand_recorded {now : Nat} {c : Command S} (h : (aofFrame now c).isSome)
    (rts : Nat → Runtime) (r : Recovered S J) :
    replayCommand rts r (recorded now c) =
      match r.transactionBuffer with
      | some buffer => .ok { r with transactionBuffer := some (buffer ++ [recorded now c]) }
      | none => executeCommand rts r (recorded now c) := by
  cases c with
  | set | mset | lpush | lpop | hset | hdel | jsonSet | zadd | zrem => rfl
  | get | ping | unimplement | eval | blpop | hget | mget | multi | exec | multiGroup | jsonGet
  | zscore | zrank | zrange => cases h

theorem replayFrame_recorded {now : Nat} {c : Command S} (hc : Parsed c) {f : Frame}
    (hf : aofFrame now c = some f) (rts : Nat → Runtime) (r : Recovered S J) :
    (Loggable now c ∧ replayFrame rts r f = replayCommand rts r (recorded now c)) ∨
      (¬ Loggable now c ∧ ∃ e, replayFrame rts r f = .error e) := by
  by_cases hl : Loggable now c
  · refine .inl ⟨hl, ?_⟩
    simp only [replayFrame, tryFrom_aofFrame hf hl]
  · obtain ⟨e, he⟩ := Parsed.unreadable hc hf hl
    refine .inr ⟨hl, .kv e, ?_⟩
    simp only [replayFrame, he]

theorem replayFrames_body (now : Nat) (cmds : List (Command S)) (hc : ∀ c ∈ cmds, Parsed c)
    (hl : ∀ c ∈ cmds, Loggable now c) (r : Recovered S J) (buffer : List (Command S)) :
    replayFrames rts { r with transactionBuffer := some buffer } (cmds.filterMap (aofFrame now)) =
      .ok { r with transactionBuffer := some (buffer ++ LogRecord.inGroup now cmds) } := by
  induction cmds generalizing buffer with
  | nil => simp [replayFrames, LogRecord.inGroup]
  | cons c cmds ih =>
      have ih' := ih (fun x hx => hc x (List.mem_cons_of_mem c hx))
        (fun x hx => hl x (List.mem_cons_of_mem c hx))
      cases hf : aofFrame now c with
      | none => simp [LogRecord.inGroup, hf, ih']
      | some f =>
          rcases replayFrame_recorded (hc c (by simp)) hf rts
            { r with transactionBuffer := some buffer } with ⟨-, he⟩ | ⟨hbad, -⟩
          · rw [replayCommand_recorded (by rw [hf]; rfl)] at he
            simp only [List.filterMap_cons, hf, replayFrames, he, ih', LogRecord.inGroup,
              List.filter_cons, Option.isSome_some, if_true, List.map_cons, List.append_assoc,
              List.cons_append, List.nil_append]
          · exact absurd (hl c (by simp)) hbad

omit [F64 S] [SerdeJson J] in
theorem recovered_eta (h : r.transactionBuffer = none) :
    (⟨r.db, none, r.executed⟩ : Recovered S J) = r := by
  cases r
  cases h
  rfl

/-- Replaying a record runs its commands. -/
theorem replayFrames_record {rec : LogRecord S} (hw : rec.Written) (hl : rec.Readable)
    (hr : r.transactionBuffer = none) :
    replayFrames rts r rec.frames = executeAll rts r rec.commands := by
  cases rec with
  | single now c =>
      obtain ⟨f, hf⟩ := Option.isSome_iff_exists.mp hw.2
      rcases replayFrame_recorded hw.1 hf rts r with ⟨-, he⟩ | ⟨hbad, -⟩
      · rw [replayCommand_recorded hw.2, hr] at he
        simp only [LogRecord.frames, hf, Option.toList_some, replayFrames, he, LogRecord.commands,
          executeAll]
      · exact absurd hl hbad
  | group now cmds =>
      simp only [LogRecord.frames, List.cons_append, replayFrames, replayFrame, tryFrom_multiFrame,
        replayCommand, replayFrames_append, replayFrames_body now cmds hw hl r [], tryFrom_execFrame,
        LogRecord.commands, List.nil_append, recovered_eta hr]
      cases executeAll rts r (LogRecord.inGroup now cmds) <;> rfl

/-- A record with a deadline out of range ends recovery. -/
theorem readable_of_replayFrames {rec : LogRecord S} (hw : rec.Written)
    (h : replayFrames rts r rec.frames = .ok r') : rec.Readable := by
  cases rec with
  | single now c =>
      obtain ⟨f, hf⟩ := Option.isSome_iff_exists.mp hw.2
      rcases replayFrame_recorded hw.1 hf rts r with ⟨hl, -⟩ | ⟨-, e, he⟩
      · exact hl
      · simp [LogRecord.frames, hf, replayFrames, he] at h
  | group now cmds =>
      simp only [LogRecord.frames, List.cons_append, replayFrames, replayFrame, tryFrom_multiFrame,
        replayCommand, replayFrames_append] at h
      have hbody : ∀ (cmds : List (Command S)) (r : Recovered S J), (∀ c ∈ cmds, Parsed c) →
          (∃ r', replayFrames rts r (cmds.filterMap (aofFrame now)) = .ok r') →
          ∀ c ∈ cmds, Loggable now c := by
        intro cmds
        induction cmds with
        | nil => intro _ _ _ c hc; cases hc
        | cons c cmds ih =>
            rintro r hp ⟨r', hr⟩
            have hp' : ∀ x ∈ cmds, Parsed x := fun x hx => hp x (List.mem_cons_of_mem c hx)
            rw [List.forall_mem_cons]
            cases hf : aofFrame now c with
            | none =>
                rw [List.filterMap_cons, hf] at hr
                refine ⟨?_, ih r hp' ⟨r', hr⟩⟩
                cases c <;> trivial
            | some f =>
                rw [List.filterMap_cons, hf] at hr
                rcases replayFrame_recorded (hp c (by simp)) hf rts r with ⟨hl, -⟩ | ⟨-, e, he⟩
                · simp only [replayFrames] at hr
                  cases hg : replayFrame rts r f with
                  | error e => simp [hg] at hr
                  | ok r₁ =>
                      rw [hg] at hr
                      exact ⟨hl, ih r₁ hp' ⟨r', hr⟩⟩
                · simp [replayFrames, he] at hr
      refine hbody cmds { r with transactionBuffer := some [] } hw ?_
      cases hb : replayFrames rts { r with transactionBuffer := some [] }
          (cmds.filterMap (aofFrame now)) with
      | error e => simp [hb] at h
      | ok r₁ => exact ⟨r₁, rfl⟩

theorem replayFrames_log {records : List (LogRecord S)} (hw : ∀ rec ∈ records, rec.Written)
    (hl : ∀ rec ∈ records, rec.Readable) (hr : r.transactionBuffer = none) :
    replayFrames rts r (records.flatMap LogRecord.frames) =
      executeAll rts r (records.flatMap LogRecord.commands) := by
  induction records generalizing r with
  | nil => rfl
  | cons rec records ih =>
      rw [List.flatMap_cons, List.flatMap_cons, replayFrames_append, executeAll_append,
        replayFrames_record (hw rec (by simp)) (hl rec (by simp)) hr]
      cases he : executeAll rts r rec.commands with
      | error e => rfl
      | ok r₁ =>
          exact ih (fun x hx => hw x (List.mem_cons_of_mem rec hx))
            (fun x hx => hl x (List.mem_cons_of_mem rec hx)) ((executeAll_ok _ he).1.trans hr)

theorem drain_log {records : List (LogRecord S)} (hw : ∀ rec ∈ records, rec.Written)
    (hl : ∀ rec ∈ records, rec.Readable) (db : Db (Value S J))
    (h : executeAll rts (start db) (records.flatMap LogRecord.commands) = .ok r) :
    drain rts (log records).length (start db) (log records) 0 =
      .ok (r, none, (records.flatMap LogRecord.frames).length) := by
  have hframes : replayFrames rts (start db) (records.flatMap LogRecord.frames) = .ok r :=
    (replayFrames_log hw hl rfl).trans h
  have hd := drain_frames rts (frames_fit hw) (t := []) (.inl rfl) (start db) _ 0 (le_refl _)
  rw [List.append_nil, hframes, Nat.zero_add] at hd
  rw [log_eq hw]
  exact hd

end RustKv.Recovery
