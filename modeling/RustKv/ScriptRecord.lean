import RustKv.LogRecords
import RustKv.RecoveryReads
import RustKv.ScriptMirror

namespace RustKv.Lua

open Text Protocol Domain CommandParser FrameRoundTrip CacheStore Zset RustKv.Types Executor AofEncoder
  AofRoundTrip RequestReading Recovery

section Locks

variable {D : Type} [Host]

theorem lockAll_lookup (db : Db D) (shards : List (Fin Host.numShards)) (i : Fin Host.numShards) :
    (lockAll db shards).lookup i = if i ∈ shards then some (lockWriteLua (db.shards i)) else none := by
  have hall : ∀ (shards : List (Fin Host.numShards)) (sessions : Sessions D),
      (shards.foldl (fun sessions i => sessions.insert i (lockWriteLua (db.shards i))) sessions).lookup i =
        if i ∈ shards then some (lockWriteLua (db.shards i)) else sessions.lookup i := by
    intro shards
    induction shards with
    | nil => intro sessions; rfl
    | cons j shards ih =>
        intro sessions
        rw [List.foldl_cons, ih]
        by_cases hj : i = j
        · subst hj
          simp [Finmap.lookup_insert]
        · rw [Finmap.lookup_insert_of_ne _ hj]
          simp [hj]
  rw [lockAll, hall]
  rfl

/-- What a script has when it has locked its shards. -/
def lockedOverlay (shards : List (Fin Host.numShards)) (m : Cells D) : Overlay D where
  declared i := decide (i ∈ shards)
  cells k := if Host.shardIndex k ∈ shards then ⟨none, m k⟩ else ⟨none, none⟩

theorem lockAll_reflects (db : Db D) (shards : List (Fin Host.numShards)) :
    Reflects (lockAll db shards) (lockedOverlay shards db.entry) := by
  refine ⟨fun i => ?_, fun i node hi => ?_, fun k node hk => ?_⟩
  · rw [lockAll_lookup, lockedOverlay]
    by_cases h : i ∈ shards <;> simp [h]
  · rw [lockAll_lookup] at hi
    split at hi <;> cases hi
    exact ⟨_, rfl⟩
  · rw [lockAll_lookup] at hk
    split at hk
    · next h =>
        cases hk
        simp only [lockedOverlay, if_pos h]
        rfl
    · cases hk

/-- What the keys hold when a script has committed and dropped its locks. -/
theorem release_entry (db : Db D) {sessions : Sessions D} {o : Overlay D} (h : Reflects sessions o)
    {drained : Fin Host.numShards → List (Str × ChangeOp D)}
    (hdrained : ∀ i node, sessions.lookup i = some node → Drains node.differMap (drained i)) (k : Str) :
    (release db (committed sessions drained)).entry k =
      if o.declared (Host.shardIndex k) then (o.cells k).committed else db.entry k := by
  rw [h.declared]
  simp only [Db.entry, release, committed]
  cases hl : sessions.lookup (Host.shardIndex k) with
  | none => rfl
  | some node =>
      obtain ⟨g, hg⟩ := h.writes _ node hl
      obtain ⟨g', hg', hlookup⟩ := commit_lookup hg (hdrained _ node hl)
      simp only [Option.map_some, hg', DirectCacheNode.guard, hlookup, Option.isSome_some, if_true,
        ← h.cells k node hl, LuaCell.committed, nodeCell]
      cases node.differMap.lookup k with
      | none => rw [hg]; rfl
      | some change => cases change <;> rfl

end Locks

section Record

variable {S J : Type} [Host] [F64 S] [SerdeJson J] {db : Db (Value S J)} {moments : Nat → Moment}
  {rts : Nat → Runtime} {sentAt : Nat} {env : CurrentRequestEnv (Sessions (Value S J)) S}

/-- Replaying the commands of the buffer on the database gives what the script has. -/
def Agrees (db : Db (Value S J)) (moments : Nat → Moment) (rts : Nat → Runtime) (sentAt : Nat)
    (env : CurrentRequestEnv (Sessions (Value S J)) S) : Prop :=
  (∀ c ∈ env.luaAofBuffer, Parsed c ∧ Loggable sentAt c) ∧
    ∃ o r, Reflects env.sessions o ∧ Mirrors db.entry moments o r.db.entry ∧
      executeAll rts (start db) (LogRecord.inGroup sentAt env.luaAofBuffer) = .ok r

theorem agrees_init (keys : List Str) : Agrees db moments rts sentAt (initLuaPre db keys) := by
  refine ⟨by simp [initLuaPre], lockedOverlay (shardIndices keys) db.entry, start db,
    lockAll_reflects db _, ?_, rfl⟩
  have hchange (k : Str) : ((lockedOverlay (shardIndices keys) db.entry).cells k).change = none := by
    simp only [lockedOverlay]
    split <;> rfl
  refine ⟨fun k _ => hchange k, fun k change hk => ?_, fun _ _ => rfl, fun k hd _ => .inl ?_⟩
  · rw [hchange] at hk
    cases hk
  · simp only [lockedOverlay, decide_eq_true_eq] at hd
    simp only [lockedOverlay, if_pos hd]

theorem parsed_call {c : Call} {command : Command S}
    (h : tryFrom (.array (c.args.map .bulk)) = .ok command) : Parsed command := by
  have hp := parseFrame_append c.fits []
  rw [List.append_nil] at hp
  exact ⟨_, _, _, hp, h⟩

omit [Host] [SerdeJson J] in
theorem inGroup_append (now : Nat) (buffer : List (Command S)) (c : Command S) :
    LogRecord.inGroup now (buffer ++ [c]) =
      LogRecord.inGroup now buffer ++ if (aofFrame now c).isSome then [recorded now c] else [] := by
  simp only [LogRecord.inGroup, List.filter_append, List.map_append]
  cases h : (aofFrame now c).isSome <;> simp [h]

def Recorded (db : Db (Value S J)) (env : CurrentRequestEnv (Sessions (Value S J)) S) (moment : Moment)
    (command : Command S) : Prop :=
  Recordable db.entry (sight env.sessions) moment.now command

theorem redisCall_eq {γ : Type} [Context γ (Value S J)] (moment : Moment) (env : CurrentRequestEnv γ S)
    {c : Call} {command : Command S} (h : tryFrom (.array (c.args.map .bulk)) = .ok command) :
    redisCall moment env c =
      match (execute moment.rt moment.now env.sessions command).1.reply with
      | .ok frame => (.ok frame, ⟨(execute moment.rt moment.now env.sessions command).2,
          env.luaAofBuffer ++ [command]⟩)
      | .error e => (.error (.command e), ⟨(execute moment.rt moment.now env.sessions command).2,
          env.luaAofBuffer⟩) := by
  simp only [redisCall, h]
  cases execute moment.rt moment.now env.sessions command with
  | mk done sessions =>
      obtain ⟨reply, aof, waits⟩ := done
      cases reply <;> rfl

theorem agrees_call (h : Agrees db moments rts sentAt env) (n : Nat) (c : Call)
    (hs : ∀ command, tryFrom (.array (c.args.map .bulk)) = .ok command →
      Recorded db env (moments n) command) :
    Agrees db moments rts sentAt (redisCall (moments n) env c).2 := by
  cases hcommand : tryFrom (S := S) (.array (c.args.map .bulk)) with
  | error e =>
      simp only [redisCall, hcommand]
      exact h
  | ok command =>
      have hc := parsed_call hcommand
      obtain ⟨hbuffer, o, r, ho, hm, hrun⟩ := h
      have hrec := hs command hcommand
      rw [Recorded, reflects_sight ho] at hrec
      have hlog : Loggable sentAt command := Parsed.loggable hc (fun d hd => by
        subst hd
        exact hrec.1)
      obtain ⟨hdone, ho'⟩ := ho.execute (moments n).rt (moments n).now command
      have hcall := hm.call hc n sentAt (rts r.executed.length) hrec
      rw [Replays, ← hdone] at hcall
      rw [redisCall_eq _ _ hcommand]
      cases hr : (execute (moments n).rt (moments n).now env.sessions command).1.reply with
      | error e =>
          rcases hcall with ⟨-, hm'⟩ | ⟨-, ⟨frame, hok⟩, -⟩
          · exact ⟨hbuffer, _, r, ho', hm', hrun⟩
          · rw [hr] at hok
            cases hok
      | ok frame =>
          refine ⟨fun d hd => ?_, (execute (moments n).rt (moments n).now o command).2, ?_⟩
          · rcases List.mem_append.mp hd with hd | hd
            · exact hbuffer d hd
            · rw [List.mem_singleton.mp hd]
              exact ⟨hc, hlog⟩
          · rw [inGroup_append]
            rcases hcall with ⟨hframe | ⟨e, he⟩, hm'⟩ | ⟨hsome, -, ⟨reply, hreply⟩, hm'⟩
            · rw [hframe]
              refine ⟨r, ho', hm', ?_⟩
              rw [Option.isSome_none, if_neg (by simp), List.append_nil]
              exact hrun
            · rw [hr] at he
              cases he
            · obtain ⟨r', hr', hentry⟩ := executeCommand_entry r hreply
              refine ⟨r', ho', hentry ▸ hm', ?_⟩
              rw [if_pos hsome, executeAll_append, hrun]
              simp only [executeAll, hr']

theorem agrees_run (script : Script) (n : Nat) (h : Agrees db moments rts sentAt env)
    (hs : script.Calls (Recorded db) moments n env) :
    Agrees db moments rts sentAt (script.run moments n env).2 := by
  induction script generalizing n env with
  | ret frame => exact h
  | fail text => exact h
  | call c next ih => exact ih _ (n + 1) (agrees_call h n c hs.1) hs.2

/-- The value of an entry that a reader can see. -/
def visible (now : Nat) (entry : Option (ValueEntry (Value S J))) : Option (Logical S J) :=
  logicalOf (unlessExpired now entry)

omit [Host] [F64 S] [SerdeJson J] in
theorem visible_congr (now : Nat) {e e' : Option (ValueEntry (Value S J))}
    (h : observed e = observed e') : visible now e = visible now e' := by
  cases e with
  | none =>
      cases e' with
      | none => rfl
      | some x' => cases h
  | some x =>
      cases e' with
      | none => cases h
      | some x' =>
          simp only [observed, Option.map_some, Option.some.injEq, Prod.mk.injEq] at h
          have hexp : x.isExpired now = x'.isExpired now := by rw [ValueEntry.isExpired, h.2]; rfl
          simp only [visible, unlessExpired, Option.filter, hexp]
          by_cases hx : x'.isExpired now = true <;> simp [hx, logicalOf, h.1]

omit [Host] [F64 S] [SerdeJson J] in
theorem visible_expired {now t : Nat} {x : ValueEntry (Value S J)} (h : x.isExpired t = true)
    (ht : t ≤ now) : visible now (some x) = none := by
  have hexp : x.isExpired now = true := by
    unfold ValueEntry.isExpired at h ⊢
    split
    · next hx =>
        rw [hx] at h
        simp only [decide_eq_true_eq] at h ⊢
        omega
    · next hx =>
        rw [hx] at h
        cases h
  rw [visible, unlessExpired_eq_none hexp]
  rfl

omit [F64 S] [SerdeJson J] in
/-- What is left of a script in the overlay is what is left of its record in the
replay. -/
theorem Mirrors.visible {m m' : Cells (Value S J)} {o : Overlay (Value S J)}
    (h : Mirrors m moments o m') {now : Nat} (hnow : ∀ n, (moments n).now ≤ now) (k : Str) :
    Lua.visible now (m' k) = Lua.visible now
      (if o.declared (Host.shardIndex k) then (o.cells k).committed else m k) := by
  cases hd : o.declared (Host.shardIndex k) with
  | false => exact visible_congr now (h.kept k (h.outside k hd))
  | true =>
      rw [if_pos rfl, LuaCell.committed]
      cases hc : (o.cells k).change with
      | some change => exact visible_congr now (h.changed k change hc)
      | none =>
          rw [visible_congr now (h.kept k hc)]
          rcases h.below k hd hc with hb | ⟨hb, e, n, he, hexp⟩
          · rw [hb]
          · rw [hb, he, visible_expired hexp (hnow n)]
            rfl

/-- A script whose calls may all be recorded, and the replay of its record on the
database it began with. -/
theorem record_agrees (db : Db (Value S J)) (keys : List Str) (script : Script) (moments : Nat → Moment)
    (sentAt : Nat) {frame : Frame} {env : CurrentRequestEnv (Sessions (Value S J)) S}
    (hrun : script.run moments 0 (initLuaPre db keys) = (.ok frame, env))
    (hcalls : script.Calls (Recorded db) moments 0 (initLuaPre db keys))
    {drained : Fin Host.numShards → List (Str × ChangeOp (Value S J))}
    (hdrained : ∀ i node, env.sessions.lookup i = some node → Drains node.differMap (drained i))
    (rts : Nat → Runtime) :
    let record := (multiGroup sentAt env.luaAofBuffer).getD []
    ∃ r n, drain rts record.length (start db) record 0 = .ok (r, none, n) ∧
      ∀ now, (∀ n, (moments n).now ≤ now) → ∀ k, visible now (r.db.entry k) =
        visible now ((release db (committed env.sessions drained)).entry k) := by
  intro record
  have hagrees : Agrees db moments rts sentAt (script.run moments 0 (initLuaPre db keys)).2 :=
    agrees_run script 0 (agrees_init keys) hcalls
  rw [hrun] at hagrees
  obtain ⟨hbuffer, o, r, ho, hm, hr⟩ := hagrees
  have hfinal : ∀ now, (∀ n, (moments n).now ≤ now) → ∀ k, visible now (r.db.entry k) =
      visible now ((release db (committed env.sessions drained)).entry k) := by
    intro now hnow k
    rw [release_entry db ho hdrained]
    exact hm.visible hnow k
  by_cases hnil : env.luaAofBuffer = []
  · have hrecord : record = [] := by simp only [record, multiGroup, if_pos hnil]; rfl
    rw [hnil] at hr
    cases hr
    exact ⟨start db, 0, by rw [hrecord]; rfl, hfinal⟩
  · have hw : (LogRecord.group sentAt env.luaAofBuffer).Written := fun c hc => (hbuffer c hc).1
    have hl : (LogRecord.group sentAt env.luaAofBuffer).Readable := fun c hc => (hbuffer c hc).2
    have hrecord : record = serializeAll (LogRecord.group sentAt env.luaAofBuffer).frames := by
      rw [← LogRecord.bytes_eq hw]
      simp only [record, multiGroup, if_neg hnil]
      rfl
    have hreplay : replayFrames rts (start db) (LogRecord.group sentAt env.luaAofBuffer).frames = .ok r :=
      (replayFrames_record hw hl rfl).trans hr
    have hd := drain_frames rts (LogRecord.frames_fit hw) (t := []) (.inl rfl) (start db)
      (serializeAll (LogRecord.group sentAt env.luaAofBuffer).frames ++ []).length 0 (le_refl _)
    rw [List.append_nil, hreplay] at hd
    rw [hrecord, hd]
    exact ⟨r, _, rfl, hfinal⟩

end Record

section Sample

local instance : Host := singleShard

local instance : F64 UInt64 := wholeScore

local instance : SerdeJson Str := flatJson

def sampleMoments : Nat → Moment := fun n => ⟨sampleRuntime n, 0⟩

/-- redis.call("SET", "k", "v") -/
def sampleCall : Call where
  args := [ascii ['S', 'E', 'T'], sampleKey.bytes, ascii ['v']]
  fits := by simp [Fits, FitsAll, ascii, sampleKey, Str.ofAscii]

/-- redis.call("GET", "k") -/
def getCall : Call where
  args := [ascii ['G', 'E', 'T'], sampleKey.bytes]
  fits := by simp [Fits, FitsAll, ascii, sampleKey, Str.ofAscii]

def pushKey : Str := Str.ofAscii (ascii ['l']) (by decide)

/-- redis.call("LPUSH", "l", "x") -/
def lpushCall : Call where
  args := [ascii ['L', 'P', 'U', 'S', 'H'], pushKey.bytes, ascii ['x']]
  fits := by simp [Fits, FitsAll, ascii, pushKey, Str.ofAscii]

def sampleScript : Script :=
  .call sampleCall (fun _ => .call getCall (fun _ => .call lpushCall (fun _ => .ret .null)))

def sampleShard : Fin Host.numShards := ⟨0, by decide⟩

def sampleInit (db : Db (Value UInt64 Str)) : CurrentRequestEnv (Sessions (Value UInt64 Str)) UInt64 :=
  ⟨lockAll db [sampleShard], []⟩

theorem sample_init (db : Db (Value UInt64 Str)) : initLuaPre db [sampleKey] = sampleInit db := by
  have h : shardIndices [sampleKey] = [sampleShard] := by
    simp only [shardIndices, List.map_cons, List.map_nil, List.mergeSort_singleton]
    rfl
  rw [initLuaPre, h]
  rfl

def sampleEnv : CurrentRequestEnv (Sessions (Value UInt64 Str)) UInt64 :=
  (sampleScript.run sampleMoments 0 (sampleInit sampleDb)).2

def lpushEntry : ValueEntry (Value UInt64 Str) := newEntry (.list [.string (ascii ['x'])] 0 1) none

def sampleDrained (_ : Fin Host.numShards) : List (Str × ChangeOp (Value UInt64 Str)) :=
  [(pushKey, .update lpushEntry), (sampleKey, .update (setEntry 0 sampleSet))]

theorem sample_drains : ∀ i node, sampleEnv.sessions.lookup i = some node →
    Drains node.differMap (sampleDrained i) := by
  intro i node hi
  have h0 : i = sampleShard := Fin.ext (Nat.lt_one_iff.mp i.isLt)
  have hmap : (sampleEnv.sessions.lookup sampleShard).map (fun node => node.differMap) =
      some (((∅ : Finmap (fun _ : Str => ChangeOp (Value UInt64 Str))).insert sampleKey
        (.update (setEntry 0 sampleSet))).insert pushKey (.update lpushEntry)) := rfl
  rw [h0] at hi
  rw [hi] at hmap
  have hdiffer : node.differMap = _ := Option.some.inj hmap
  rw [hdiffer]
  exact (drains_empty.insert (Finmap.lookup_empty sampleKey) _).insert rfl _

theorem record_agrees_sample :
    let record := (multiGroup 0 sampleEnv.luaAofBuffer).getD []
    ∃ r n, drain sampleRuntime record.length (start sampleDb) record 0 = .ok (r, none, n) ∧
      ∀ now, (∀ n, (sampleMoments n).now ≤ now) → ∀ k, visible now (r.db.entry k) =
        visible now ((release sampleDb (committed sampleEnv.sessions sampleDrained)).entry k) := by
  have hrun : sampleScript.run sampleMoments 0 (initLuaPre sampleDb [sampleKey]) =
      (.ok .null, sampleEnv) := by
    rw [sample_init]
    rfl
  refine record_agrees sampleDb [sampleKey] sampleScript sampleMoments 0 hrun ?_ sample_drains sampleRuntime
  rw [sample_init]
  refine ⟨?_, ?_, ?_, trivial⟩
  · have hset : CommandParser.tryFrom (S := UInt64) (.array (sampleCall.args.map .bulk)) =
        .ok (.set sampleSet) := rfl
    rintro command hcommand
    rw [hset] at hcommand
    cases hcommand
    refine ⟨rfl, fun cell _ => ⟨?_, ?_⟩⟩
    · rintro ⟨⟩
    · rintro ⟨⟩
  · rintro command ⟨⟩ ⟨⟩
  · rintro command ⟨⟩ - key hkey cell ⟨⟩ -
    obtain rfl := List.mem_singleton.mp hkey
    rfl

/-- redis.call("SET", "k", "v", "NX") -/
def sampleNx : Call where
  args := [ascii ['S', 'E', 'T'], sampleKey.bytes, ascii ['v'], ascii ['N', 'X']]
  fits := by simp [Fits, FitsAll, ascii, sampleKey, Str.ofAscii]

/-- A database in which the key has the value `a`. -/
def sampleTaken : Db (Value UInt64 Str) :=
  (execute (sampleRuntime 0) 0 sampleDb (.set (S := UInt64) ⟨sampleKey, ascii ['a'], none, none⟩)).2

/-- A SET that was refused goes to the log as one that was not. -/
theorem refused_set_recorded :
    let script := Script.call sampleNx (fun _ => .ret .null)
    ∃ env : CurrentRequestEnv (Sessions (Value UInt64 Str)) UInt64,
      script.run sampleMoments 0 (initLuaPre sampleTaken [sampleKey]) = (.ok .null, env) ∧
      (∀ i node, env.sessions.lookup i = some node → Drains node.differMap []) ∧
      ∃ record, multiGroup 0 env.luaAofBuffer = some record ∧
      ∃ r n, drain sampleRuntime record.length (start sampleTaken) record 0 = .ok (r, none, n) ∧
        visible 0 (r.db.entry sampleKey) ≠
          visible 0 ((release sampleTaken (committed env.sessions (fun _ => []))).entry sampleKey) := by
  intro script
  rw [sample_init]
  refine ⟨(script.run sampleMoments 0 (sampleInit sampleTaken)).2, rfl, ?_, _, rfl, ?_⟩
  · intro i node hi
    have h0 : i = sampleShard := Fin.ext (Nat.lt_one_iff.mp i.isLt)
    have hmap : ((script.run sampleMoments 0 (sampleInit sampleTaken)).2.sessions.lookup sampleShard).map
        (fun node => node.differMap) = some ∅ := rfl
    rw [h0] at hi
    rw [hi] at hmap
    have hdiffer : node.differMap = _ := Option.some.inj hmap
    rw [hdiffer]
    exact ⟨List.nodup_nil, fun k c => by simp⟩
  · refine ⟨_, _, rfl, ?_⟩
    intro h
    have hv : some (Logical.simple (Element.string (ascii ['v']))) =
        some (Logical.simple (S := UInt64) (J := Str) (Element.string (ascii ['a']))) := h
    revert hv
    simp [ascii]

end Sample

end RustKv.Lua
