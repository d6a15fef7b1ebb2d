import RustKv.Runs
import RustKv.ServerSteps

namespace RustKv.Normal

open Runs Text Protocol Domain CacheStore Zset RustKv.Types Executor AofEncoder AofRoundTrip
  RequestReading Recovery

section Replay

variable {S J : Type} [Host] [F64 S] [SerdeJson J] {stale : Set Str} {s s' : Server S J}

/-- A step that writes no record: it may remove entries. -/
structure Silent (s s' : Server S J) : Prop where
  aof : s'.aof = s.aof
  entries : ∀ k, logicalOf (s'.db.entry k) = logicalOf (s.db.entry k) ∨ s'.db.entry k = none

/-- A step that executes a command and writes the record of `d`. -/
structure Records (s s' : Server S J) (rt : Runtime) (c d : Command S) : Prop where
  handed : (Executor.execute rt s.now s.db.entry c).1.aof = some d
  entries : s'.db.entry = (Executor.execute rt s.now s.db.entry c).2
  aof : s'.aof = s.aof ++ [(LogRecord.single s.now d).bytes]

/-- What an event may be: a command runs no script, pushes nothing that a client
waits for, and sets no deadline that cannot be read back. -/
def Allowed (s : Server S J) : Event S → Prop
  | .command _ c => Sent c ∧ Unawaited s.blockingQueues c ∧ Loggable s.now c
  | .timeout _ _ | .wake _ | .tick _ | .evictionTtl _ _ | .evictionMemory _ => True

omit [F64 S] [SerdeJson J] in
theorem silent_evicted {i : Fin Host.numShards} {g : Guard (Value S J)} (h : Evicts (s.db.lock i) g) :
    Silent s { s with db := s.db.unlock i g } :=
  ⟨rfl, fun k => (entry_evicted s.db h k).imp (congrArg logicalOf) id⟩

/-- What one step can do. -/
theorem step_cases (e : Event S) (he : Allowed s e) (hidle : s.handed = [])
    (hfilled : ∀ k, Filled (s.db.entry k)) :
    (s.step e).handed = [] ∧
      (Silent s (s.step e) ∨ ∃ rt c d, e = .command rt c ∧ Records s (s.step e) rt c d) := by
  have hsame : Silent s s := ⟨rfl, fun _ => .inl rfl⟩
  cases e with
  | command rt c =>
      obtain ⟨hsent, hwait, -⟩ := he
      obtain ⟨hentry, haof, -, hhanded⟩ := s.execute_entry rt hwait
      refine ⟨hhanded.trans hidle, ?_⟩
      cases hd : (Executor.execute rt s.now s.db.entry c).1.aof with
      | none =>
          refine .inl ⟨?_, fun k => ?_⟩
          · rw [Server.step, haof, hd]
            exact List.append_nil _
          · rw [Server.step, hentry]
            exact (execute_silent hsent.1 rt s.now hfilled hd k).imp_right And.left
      | some d =>
          obtain ⟨f, hf⟩ := Option.isSome_iff_exists.mp (logged_written hsent.1 hd).1.2
          refine .inr ⟨rt, c, d, rfl, hd, hentry, ?_⟩
          rw [Server.step, haof, hd, LogRecord.bytes, Option.bind_some, encodeAofCommand_eq hf]
          rfl
  | timeout key i =>
      simp only [Server.step]
      split
      · exact ⟨hidle, .inl ⟨rfl, fun _ => .inl rfl⟩⟩
      · exact ⟨hidle, .inl hsame⟩
  | wake i =>
      simp only [Server.step, hidle, List.getElem?_nil]
      exact ⟨trivial, .inl hsame⟩
  | tick now => exact ⟨hidle, .inl ⟨rfl, fun _ => .inl rfl⟩⟩
  | evictionTtl i sample => exact ⟨hidle, .inl (silent_evicted (evictionTtl_evicts s.now sample _))⟩
  | evictionMemory i => exact ⟨hidle, .inl (silent_evicted (evictionMemory_evicts _))⟩

/-- The keys whose entry is in the log and not in the database: a step removed it
without a record, and no step has made a new one. -/
def Server.staleAfter (stale : Set Str) (s : Server S J) (e : Event S) : Set Str :=
  {k | (s.step e).db.entry k = none ∧ (k ∈ stale ∨ s.db.entry k ≠ none ∧ (s.step e).aof = s.aof)}

/-- A log from which the entries can be built again, but at the keys of `stale`. -/
structure Recoverable (stale : Set Str) (s : Server S J) : Prop where
  idle : s.handed = []
  filled : ∀ k, Filled (s.db.entry k)
  log : ∃ records : List (LogRecord S), (∀ rec ∈ records, rec.Written ∧ rec.Readable) ∧
    s.aof.flatten = log records ∧
    ∀ rts db, (∀ k, db.entry k = none) →
      ∃ r, executeAll rts (start db) (records.flatMap LogRecord.commands) = .ok r ∧
        Behind stale s.db.entry r.db.entry

theorem new_recoverable (configType : Eviction.EvictionType) (now : Nat) :
    Recoverable ∅ (Server.new configType now : Server S J) where
  idle := rfl
  filled k := by simp [Filled, logicalOf, Server.new, Db.entry_new]
  log := by
    refine ⟨[], by simp, rfl, fun rts db hdb => ⟨start db, rfl, by simp, fun k _ => ?_⟩⟩
    rw [start, hdb, Server.new, Db.entry_new]

theorem Recoverable.silent (h : Recoverable stale s) {e : Event S} (hidle : (s.step e).handed = [])
    (hs : Silent s (s.step e)) : Recoverable (s.staleAfter stale e) (s.step e) := by
  refine ⟨hidle, fun k => ?_, ?_⟩
  · rcases hs.entries k with hk | hk
    · rw [Filled, hk]
      exact h.filled k
    · simp [Filled, logicalOf, hk]
  · obtain ⟨records, hrec, hlog, hrun⟩ := h.log
    refine ⟨records, hrec, by rw [hs.aof, hlog], fun rts db hdb => ?_⟩
    obtain ⟨r, hr, hb⟩ := hrun rts db hdb
    refine ⟨r, hr, fun k hk => hk.1, fun k hk => ?_⟩
    have hgone (hnone : (s.step e).db.entry k = none) : k ∉ stale ∧ s.db.entry k = none := by
      by_contra hcon
      refine hk ⟨hnone, ?_⟩
      by_cases hstale : k ∈ stale
      · exact .inl hstale
      · exact .inr ⟨fun hn => hcon ⟨hstale, hn⟩, hs.aof⟩
    cases hnew : (s.step e).db.entry k with
    | none =>
        obtain ⟨hstale, hold⟩ := hgone hnew
        rw [← hb.same k hstale, hold]
    | some x =>
        rcases hs.entries k with hl | hl
        · rw [← hnew, hl]
          refine hb.same k (fun hstale => ?_)
          rw [hb.gone k hstale, hnew] at hl
          cases hl
        · rw [hl] at hnew
          cases hnew

theorem Recoverable.append (h : Recoverable stale s) {stale' : Set Str} {d : Command S}
    (hd : (LogRecord.single s.now d).Written ∧ (LogRecord.single s.now d).Readable) (hidle : s'.handed = [])
    (hfilled : ∀ k, Filled (s'.db.entry k)) (haof : s'.aof = s.aof ++ [(LogRecord.single s.now d).bytes])
    (hrun : ∀ rt (m : Cells (Value S J)), Behind stale s.db.entry m →
      (∃ reply, (Executor.execute rt 0 m (recorded s.now d)).1.reply = .ok reply) ∧
        Behind stale' s'.db.entry (Executor.execute rt 0 m (recorded s.now d)).2) : Recoverable stale' s' := by
  obtain ⟨records, hrec, hlog, hall⟩ := h.log
  refine ⟨hidle, hfilled, records ++ [.single s.now d], ?_, ?_, fun rts db hdb => ?_⟩
  · intro rec hmem
    rcases List.mem_append.mp hmem with hmem | hmem
    · exact hrec rec hmem
    · rw [List.mem_singleton.mp hmem]
      exact hd
  · rw [haof, List.flatten_append, hlog]
    simp [Recovery.log]
  · obtain ⟨r, hr, hb⟩ := hall rts db hdb
    obtain ⟨⟨reply, hreply⟩, hb'⟩ := hrun (rts r.executed.length) r.db.entry hb
    obtain ⟨r', hr', hentry⟩ := executeCommand_entry r hreply
    refine ⟨r', ?_, by rwa [hentry]⟩
    rw [List.flatMap_append, executeAll_append, hr]
    simp only [List.flatMap_cons, List.flatMap_nil, List.append_nil, LogRecord.commands, executeAll, hr']

theorem Recoverable.records (h : Recoverable stale s) {e : Event S} (hidle : (s.step e).handed = [])
    {rt : Runtime} {c d : Command S} (hc : Parsed c) (hl : Loggable s.now c)
    (hcreate : Creates J c → ∀ k ∈ touched c, k ∉ stale) (hs : Records s (s.step e) rt c d) :
    Recoverable (s.staleAfter stale e) (s.step e) := by
  obtain ⟨hw, hr⟩ := logged_written hc hs.handed
  refine h.append ⟨hw, hr hl⟩ hidle ?_ hs.aof (fun rt' m hb => ?_)
  · rw [hs.entries]
    exact execute_filled hc rt s.now h.filled
  · obtain ⟨hreply, hb'⟩ := hb.logged hc rt rt' s.now hs.handed hcreate
    rw [← hs.entries] at hb'
    exact ⟨hreply, hb'.mono (fun k hk => ⟨hk.2, .inl hk.1⟩) (fun k hk => hk.1)⟩

/-- The events that keep the log good: a command that may only make an entry, not
replace one, finds no stale entry at its key. -/
def Careful (stale : Set Str) (s : Server S J) (e : Event S) : Prop :=
  Allowed s e ∧ ∀ rt c, e = .command rt c → Creates J c → ∀ k ∈ touched c, k ∉ stale

theorem Recoverable.step (h : Recoverable stale s) {e : Event S} (he : Careful stale s e) :
    Recoverable (s.staleAfter stale e) (s.step e) := by
  obtain ⟨hidle, hs | ⟨rt, c, d, rfl, hs⟩⟩ := step_cases e he.1 h.idle h.filled
  · exact h.silent hidle hs
  · exact h.records hidle he.1.1.1 he.1.2.2 (he.2 rt c rfl) hs

def Server.track (p : Set Str × Server S J) (e : Event S) : Set Str × Server S J :=
  (p.2.staleAfter p.1 e, p.2.step e)

theorem track_run (events : List (Event S)) (p : Set Str × Server S J) :
    (events.foldl Server.track p).2 = p.2.run events := by
  induction events generalizing p with
  | nil => rfl
  | cons e events ih => exact ih (Server.track p e)

theorem careful_run {p : Set Str × Server S J} (hp : Recoverable p.1 p.2) {events : List (Event S)}
    (h : Along Server.track (fun p => Careful p.1 p.2) p events) :
    ∃ stale, Recoverable stale (p.2.run events) := by
  refine ⟨(events.foldl Server.track p).1, ?_⟩
  rw [← track_run]
  exact h.invariant (fun p e hp he => Recoverable.step hp he) events hp

/-- Recovery from the log, when its calls of read return at the ends of frames,
succeeds and finds the value of every key that has an entry. -/
def Restores (s : Server S J) : Prop :=
  ∃ fs, (∀ f ∈ fs, Fits f) ∧ s.aof.flatten = serializeAll fs ∧
    ∀ rts configType capacity reads result, 0 < capacity → OnFrames fs reads →
      explainExecuteAofcommand rts capacity s.aof.flatten reads (Db.new configType) = some result →
      ∃ r, result = .ok (r, s.aof.flatten) ∧
        ∀ k e, s.db.entry k = some e → logicalOf (r.db.entry k) = some (logical e.data)

theorem Recoverable.replay (h : Recoverable stale s) : ∃ fs, (∀ f ∈ fs, Fits f) ∧
    s.aof.flatten = serializeAll fs ∧ ∀ rts configType, ∃ r : Recovered S J,
      replayFrames rts (start (Db.new configType)) fs = .ok r ∧ Behind stale s.db.entry r.db.entry := by
  obtain ⟨records, hrec, hlog, hrun⟩ := h.log
  have hw : ∀ rec ∈ records, rec.Written := fun rec hmem => (hrec rec hmem).1
  have hl : ∀ rec ∈ records, rec.Readable := fun rec hmem => (hrec rec hmem).2
  refine ⟨records.flatMap LogRecord.frames, frames_fit hw, hlog.trans (log_eq hw), fun rts configType => ?_⟩
  obtain ⟨r, hr, hb⟩ := hrun rts (Db.new configType) (Db.entry_new configType)
  exact ⟨r, (replayFrames_log hw hl rfl).trans hr, hb⟩

theorem Recoverable.restores (h : Recoverable stale s) : Restores s := by
  obtain ⟨fs, hfit, hlog, hrun⟩ := h.replay
  refine ⟨fs, hfit, hlog, fun rts configType capacity reads result hpos hreads hresult => ?_⟩
  obtain ⟨r, hr, hb⟩ := hrun rts configType
  rw [hlog] at hresult ⊢
  refine ⟨r, (recovery_onFrames hpos hfit hr hresult).1 hreads, fun k e hk => ?_⟩
  have hstale : k ∉ stale := by
    intro hmem
    rw [hb.gone k hmem] at hk
    cases hk
  rw [← hb.same k hstale, hk]
  rfl

theorem Recoverable.drained (h : Recoverable ∅ s) (rts : Nat → Runtime) (configType : Eviction.EvictionType) :
    ∃ r n, drain rts s.aof.flatten.length (start (Db.new configType)) s.aof.flatten 0 = .ok (r, none, n) ∧
      ∀ k, logicalOf (r.db.entry k) = logicalOf (s.db.entry k) := by
  obtain ⟨records, hrec, hlog, hrun⟩ := h.log
  obtain ⟨r, hr, hb⟩ := hrun rts (Db.new configType) (Db.entry_new configType)
  refine ⟨r, (records.flatMap LogRecord.frames).length, ?_, fun k => (hb.same k (Set.notMem_empty k)).symm⟩
  rw [hlog]
  exact drain_log (fun rec hmem => (hrec rec hmem).1) (fun rec hmem => (hrec rec hmem).2) _ hr

/-- Expirations, evictions and clock advances between commands do no harm to the
log as long as every event is careful. -/
theorem restores_of_careful (configType : Eviction.EvictionType) (now : Nat) {events : List (Event S)}
    (h : Along Server.track (fun p => Careful p.1 p.2) (∅, (Server.new configType now : Server S J))
      events) :
    Restores ((Server.new configType now : Server S J).run events) := by
  obtain ⟨stale, hrec⟩ := careful_run (new_recoverable configType now) h
  exact hrec.restores

/-- An event of a run without expirations and evictions in which no LPUSH meets a
waiting client. -/
def Plain (s : Server S J) : Event S → Prop
  | .command _ c => Sent c ∧ Unawaited s.blockingQueues c ∧ ∀ d, c = .set d → d.expiration = none
  | .timeout _ _ | .wake _ | .tick _ => True
  | .evictionTtl _ _ | .evictionMemory _ => False

/-- No entry has an expiration. -/
def Timeless (m : Cells (Value S J)) : Prop := ∀ k e, m k = some e → e.expiresAt = none

omit [Host] [F64 S] [SerdeJson J] in
theorem Timeless.update {m : Cells (Value S J)} (h : Timeless m) {key : Str}
    {e : Option (ValueEntry (Value S J))} (he : ∀ x, e = some x → x.expiresAt = none) :
    Timeless (Function.update m key e) := by
  intro k x hx
  rw [Function.update_apply] at hx
  split at hx
  · exact he x hx
  · exact h k x hx

omit [Host] [F64 S] [SerdeJson J] in
theorem Timeless.taken {m : Cells (Value S J)} (h : Timeless m) {key : Str} {d : Command S}
    {f : Option (ValueEntry (Value S J)) → Done S × PutBack (Value S J)} (hf : Faithful d f) :
    Timeless (Function.update m key ((f (m key)).2.result none)) := by
  refine h.update (fun x hx => ?_)
  rw [hf.expires _ x hx]
  cases hm : m key with
  | none => rfl
  | some e => exact h key e hm

theorem execute_timeless {c : Command S} (hc : Parsed c) (hset : ∀ d, c = .set d → d.expiration = none)
    (rt : Runtime) (now : Nat) {m : Cells (Value S J)} (h : Timeless m) :
    Timeless (Executor.execute rt now m c).2 := by
  rcases command_cases (J := J) hc with hq | ⟨s, rfl⟩ | ⟨s, rfl⟩ | ⟨b, rfl⟩ | ⟨key, f, ht⟩
  · rw [(hq.onCells rt now m).1]
    exact h
  · refine h.update (fun x hx => ?_)
    rcases set_result now now s (m s.key) with ⟨-, he⟩ | ⟨-, he⟩
    · cases he.symm.trans hx
      rw [setEntry, newEntry, hset s rfl]
      rfl
    · rw [he] at hx
      rcases unlessExpired_cases now (m s.key) with hm | hm
      · exact h s.key x (hm.symm.trans hx)
      · cases hm.symm.trans hx
  · rw [execute_mset]
    have hall : ∀ (pairs : List (Str × Bytes)) (m : Cells (Value S J)), Timeless m →
        Timeless (writePairs pairs m) := by
      intro pairs
      induction pairs with
      | nil => intro m h; exact h
      | cons p pairs ih => intro m h; exact ih _ (h.update (by rintro x ⟨⟩; rfl))
    exact hall (sortedPairs s) m h
  · exact h.taken (blpop_faithful b)
  · rw [ht.onCells]
    exact h.taken (ht.faithful rt)

theorem Plain.careful {e : Event S} (he : Plain s e) : Careful ∅ s e := by
  refine ⟨?_, fun _ _ _ _ k _ hk => hk⟩
  cases e with
  | command rt c => exact ⟨he.1, he.2.1, Parsed.loggable he.1.1 he.2.2⟩
  | timeout | wake | tick | evictionTtl | evictionMemory => trivial

theorem Plain.timeless {e : Event S} (he : Plain s e) (h : Timeless s.db.entry) :
    Timeless (s.step e).db.entry := by
  cases e with
  | command rt c =>
      rw [Server.step, (s.execute_entry rt he.2.1).1]
      exact execute_timeless he.1.1 he.2.2 rt s.now h
  | timeout key i =>
      simp only [Server.step]
      split <;> exact h
  | wake i =>
      simp only [Server.step]
      split <;> exact h
  | tick now => exact h
  | evictionTtl | evictionMemory => exact he.elim

theorem Plain.keeps {e : Event S} (he : Plain s e) (h : Recoverable ∅ s) (ht : Timeless s.db.entry)
    (haof : (s.step e).aof = s.aof) {k : Str} (hk : (s.step e).db.entry k = none) :
    s.db.entry k = none := by
  cases e with
  | command rt c =>
      obtain ⟨-, hs | ⟨rt', c', d, -, hs⟩⟩ := step_cases (.command rt c) he.careful.1 h.idle h.filled
      · obtain ⟨hentry, haof', -⟩ := s.execute_entry rt he.2.1
        have hd : (Executor.execute rt s.now s.db.entry c).1.aof = none := by
          cases hd : (Executor.execute rt s.now s.db.entry c).1.aof with
          | none => rfl
          | some d =>
              obtain ⟨f, hf⟩ := Option.isSome_iff_exists.mp (logged_written he.1.1 hd).1.2
              rw [Server.step, haof', hd, Option.bind_some, encodeAofCommand_eq hf] at haof
              simp at haof
        rw [Server.step, hentry] at hk
        rcases execute_silent he.1.1 rt s.now h.filled hd k with hl | ⟨-, x, hx, hexp⟩
        · rw [hk] at hl
          cases hm : s.db.entry k with
          | none => rfl
          | some x => rw [hm] at hl; cases hl
        · simp [ValueEntry.isExpired, ht k x hx] at hexp
      · rw [hs.aof] at haof
        simp at haof
  | timeout key i =>
      simp only [Server.step] at hk
      split at hk <;> exact hk
  | wake i =>
      simp only [Server.step] at hk
      split at hk <;> exact hk
  | tick now => exact hk
  | evictionTtl | evictionMemory => exact he.elim

theorem Plain.step {e : Event S} (he : Plain s e) (h : Recoverable ∅ s) (ht : Timeless s.db.entry) :
    Recoverable ∅ (s.step e) ∧ Timeless (s.step e).db.entry := by
  have hstale : s.staleAfter ∅ e = ∅ := by
    rw [Set.eq_empty_iff_forall_notMem]
    rintro k ⟨hk, hmem | ⟨hold, haof⟩⟩
    · exact hmem
    · exact hold (he.keeps h ht haof hk)
  refine ⟨?_, he.timeless ht⟩
  rw [← hstale]
  exact h.step he.careful

/-- Replaying the log of a run without expirations and evictions builds the data
of the run again. -/
theorem replay_reconstructs (configType : Eviction.EvictionType) (now : Nat) {events : List (Event S)}
    (h : Along Server.step Plain (Server.new configType now : Server S J) events)
    (rts : Nat → Runtime) (configType' : Eviction.EvictionType) :
    let s := (Server.new configType now : Server S J).run events
    ∃ r n, drain rts s.aof.flatten.length (start (Db.new configType')) s.aof.flatten 0 =
        .ok (r, none, n) ∧
      ∀ k, logicalOf (r.db.entry k) = logicalOf (s.db.entry k) := by
  intro s
  have hnew : Timeless (Server.new configType now : Server S J).db.entry := by
    intro k e hk
    rw [Server.new, Db.entry_new] at hk
    cases hk
  have hinv : Recoverable ∅ s ∧ Timeless s.db.entry :=
    h.invariant (I := fun s => Recoverable ∅ s ∧ Timeless s.db.entry)
      (fun s e hs he => he.step hs.1 hs.2) events ⟨new_recoverable configType now, hnew⟩
  exact hinv.1.drained rts configType'

end Replay

section Sample

local instance : Host := singleShard

local instance : F64 UInt64 := wholeScore

local instance : SerdeJson Str := flatJson

/-- A string is set, evicted and set again. -/
def sampleEvents : List (Event UInt64) :=
  [.command (sampleRuntime 0) (.set sampleSet), .evictionMemory ⟨0, by decide⟩,
    .command (sampleRuntime 1) (.set sampleSet)]

theorem sample_sent : Sent (Command.set (S := UInt64) sampleSet) := ⟨sample_parsed, by rintro e ⟨⟩⟩

theorem sample_plain (s : Server UInt64 Str) (rt : Runtime) : Plain s (.command rt (.set sampleSet)) :=
  ⟨sample_sent, trivial, by rintro d ⟨⟩; rfl⟩

/-- ZADD k 1 m. -/
def sampleZAdd : ZAddCommand UInt64 := ⟨sampleKey, 1, ascii ['m']⟩

def sampleZAddFrame : Frame :=
  .array [.bulk (ascii ['Z', 'A', 'D', 'D']), .bulk sampleKey.bytes, .bulk (ascii ['1']),
    .bulk (ascii ['m'])]

theorem sampleZAdd_frame : aofFrame 0 (Command.zadd sampleZAdd) = some sampleZAddFrame := rfl

theorem sampleZAdd_sent : Sent (Command.zadd sampleZAdd) := by
  refine ⟨parsed_of_aofFrame sampleZAdd_frame ?_ ?_, by rintro e ⟨⟩⟩
  · show Text.utf8Error (ascii ['m']) = none
    decide
  · simp [sampleZAddFrame, Fits, FitsAll, ascii, sampleKey, Str.ofAscii]

theorem sent_of_aofFrame {c : Command UInt64} {f : Frame} (hf : aofFrame 0 c = some f) (hl : Loggable 0 c)
    (hfits : Fits f) (hrecorded : recorded 0 c = c) (he : ∀ e, c ≠ .eval e) : Sent c := by
  have hparsed := parsed_of_aofFrame hf hl hfits
  rw [hrecorded] at hparsed
  exact ⟨hparsed, he⟩

def pairsKey : Str := Str.ofAscii (ascii ['p']) (by decide)

def hashKey : Str := Str.ofAscii (ascii ['d']) (by decide)

/-- LPUSH p x y -/
def pushedPair : LPushCommand := ⟨pairsKey, [ascii ['x'], ascii ['y']]⟩

/-- HSET d p v -/
def hashedField : HSetCommand := ⟨hashKey, [(pairsKey, ascii ['v'])]⟩

/-- A string that is set twice, a list of which an item is popped, and a hash. -/
def sampleRun : List (Event UInt64) :=
  [.command (sampleRuntime 0) (.set sampleSet), .command (sampleRuntime 1) (.lpush pushedPair), .tick 3,
    .command (sampleRuntime 2) (.lpop ⟨pairsKey⟩), .command (sampleRuntime 3) (.hset hashedField),
    .command (sampleRuntime 4) (.set sampleSet)]

theorem replay_reconstructs_sample :
    let s := (Server.new .lru 0 : Server UInt64 Str).run sampleRun
    s.aof.length = 5 ∧ ∃ r n, drain sampleRuntime s.aof.flatten.length (start (Db.new .lfu)) s.aof.flatten 0 =
        .ok (r, none, n) ∧
      ∀ k, logicalOf (r.db.entry k) = logicalOf (s.db.entry k) := by
  intro s
  have hlpush : Sent (Command.lpush (S := UInt64) pushedPair) :=
    sent_of_aofFrame rfl (by simp [Loggable, pushedPair]) (by
      simp [Fits, FitsAll, ascii, pushedPair, pairsKey, Str.ofAscii]) rfl (by rintro e ⟨⟩)
  have hlpop : Sent (Command.lpop (S := UInt64) ⟨pairsKey⟩) :=
    sent_of_aofFrame rfl trivial (by simp [Fits, FitsAll, ascii, pairsKey, Str.ofAscii]) rfl (by rintro e ⟨⟩)
  have hhset : Sent (Command.hset (S := UInt64) hashedField) :=
    sent_of_aofFrame rfl (by simp [Loggable, hashedField]) (by
      simp [Fits, FitsAll, pairFrames, ascii, hashedField, hashKey, pairsKey, Str.ofAscii]) rfl (by rintro e ⟨⟩)
  refine ⟨rfl, replay_reconstructs .lru 0 ?_ sampleRuntime .lfu⟩
  exact ⟨sample_plain _ _, ⟨hlpush, by rintro waiters ⟨⟩, by rintro d ⟨⟩⟩, trivial,
    ⟨hlpop, trivial, by rintro d ⟨⟩⟩, ⟨hhset, trivial, by rintro d ⟨⟩⟩, sample_plain _ _, trivial⟩

theorem restores_of_careful_sample :
    Restores ((Server.new .lru 0 : Server UInt64 Str).run sampleEvents) := by
  have hset (stale : Set Str) (s : Server UInt64 Str) (rt : Runtime) :
      Careful stale s (.command rt (.set sampleSet)) := by
    refine ⟨(sample_plain s rt).careful.1, ?_⟩
    rintro rt c ⟨⟩ h
    exact h.elim
  refine restores_of_careful .lru 0 ?_
  exact ⟨hset _ _ _, ⟨trivial, by rintro rt c ⟨⟩⟩, hset _ _ _, trivial⟩

/-- A string that was evicted comes back when the log is replayed, and the sorted
set that took its place cannot be built. -/
theorem evicted_string_not_restored :
    let s := (Server.new .lru 0 : Server UInt64 Str).run
      [.command (sampleRuntime 0) (.set sampleSet), .evictionMemory ⟨0, by decide⟩,
        .command (sampleRuntime 0) (.zadd sampleZAdd)]
    Sent (Command.set (S := UInt64) sampleSet) ∧ Sent (Command.zadd sampleZAdd) ∧
      (s.db.entry sampleKey).isSome ∧
      explainExecuteAofcommand sampleRuntime 512 s.aof.flatten (atOnce s.aof.flatten) sampleDb =
        some (.error (.kv (.protocolError wrongTypeText))) := by
  intro s
  refine ⟨sample_sent, sampleZAdd_sent, ?_, ?_⟩
  · rfl
  · rfl

end Sample

end RustKv.Normal
