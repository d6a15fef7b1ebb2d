import RustKv.ExpiredKeys
import RustKv.ServerSteps

namespace RustKv.Failures

open Text Protocol Domain CacheStore Zset RustKv.Types Executor RustKv.Normal Expiry

section Accounts

variable {S D : Type}

/-- What GLOBAL_MEMORY counts besides this shard. -/
def elsewhere (g : Guard D) : UInt64 := g.globalMemory - g.shard.node.approxMemory

theorem apply_sub (c : MemoryChange) (m n : UInt64) : c.apply m - c.apply n = m - n := by
  rw [MemoryChange.apply_eq, MemoryChange.apply_eq]
  exact add_sub_add_right_eq_sub m n c.value

theorem insertGuard_elsewhere (g : Guard D) (key : Str) (value : ValueEntry D) :
    elsewhere (DirectCacheNode.insertGuard g key value) = elsewhere g := by
  obtain ⟨n, hn, -, -, hmem⟩ := MemoryCacheNode.insertEntry_spec g.shard.wf key value
  have hchange : (g.shard.insertEntry key value).1 = _ := (outcome_eq hn).1
  have hnode : (g.shard.insertEntry key value).2.node = n := (outcome_eq hn).2
  change (g.shard.insertEntry key value).1.apply g.globalMemory -
    (g.shard.insertEntry key value).2.node.approxMemory = _
  rw [hchange, hnode, hmem, apply_sub]
  rfl

theorem removeGuard_elsewhere (g : Guard D) (key : Str) :
    elsewhere (DirectCacheNode.removeGuard g key).2 = elsewhere g := by
  obtain ⟨c, n, hn, -, -, -, hmem⟩ := MemoryCacheNode.removeEntry_spec g.shard.wf key
  have he : (g.shard.node.removeEntry key).map (fun r => ((r.1, r.2.1), r.2.2)) =
      some ((g.shard.node.dbStore.lookup key, c), n) := by rw [hn]; rfl
  have hchange : (g.shard.removeEntry key).1 = _ := (outcome_eq he).1
  have hnode : (g.shard.removeEntry key).2.node = n := (outcome_eq he).2
  change (g.shard.removeEntry key).1.2.apply g.globalMemory -
    (g.shard.removeEntry key).2.node.approxMemory = _
  rw [hchange, hnode, hmem, apply_sub]
  rfl

theorem select_elsewhere (node : DirectCacheNode D) (now : Nat) (key : Str) :
    elsewhere (node.select now key).2.guard = elsewhere node.guard := by
  cases node with
  | writeguard g =>
      simp only [DirectCacheNode.select]
      cases g.shard.peekEntry key with
      | none => rfl
      | some value =>
          simp only
          split
          · exact removeGuard_elsewhere g key
          · obtain ⟨n, hn, -, -, hmem⟩ := MemoryCacheNode.getEntry_spec g.shard.wf key
            have hnode : (g.shard.getEntry key).2.node = n := (outcome_eq hn).2
            change g.globalMemory - (g.shard.getEntry key).2.node.approxMemory = _
            rw [hnode, hmem]
            rfl
  | readguard g =>
      simp only [DirectCacheNode.select]
      cases g.shard.peekEntry key with
      | none => rfl
      | some value =>
          simp only
          split
          · rfl
          · obtain ⟨n, hn, -, -, hmem⟩ := MemoryCacheNode.onRead_spec g.shard.wf key
            have he : (g.shard.node.onRead key).map (fun n => ((), n)) = some ((), n) := by rw [hn]; rfl
            have hnode : (g.shard.onRead key).2.node = n := (outcome_eq he).2
            change g.globalMemory - (g.shard.onRead key).2.node.approxMemory = _
            rw [hnode, hmem]
            rfl

theorem putBack_elsewhere (put : PutBack D) (now : Nat) (key : Str) (node : DirectCacheNode D) :
    elsewhere (put.run now key node).guard = elsewhere node.guard := by
  cases put with
  | nothing => rfl
  | insert value =>
      cases node with
      | writeguard g => exact insertGuard_elsewhere g key value
      | readguard g => rfl
  | delete =>
      cases node with
      | writeguard g => exact removeGuard_elsewhere g key
      | readguard g => rfl

theorem run_elsewhere (a : Access S D) (now : Nat) (key : Str) (node : DirectCacheNode D) :
    elsewhere (a.run now key node).2.guard = elsewhere node.guard := by
  cases a with
  | take f =>
      refine (putBack_elsewhere _ now key (node.take key).2).trans ?_
      cases node with
      | writeguard g => exact removeGuard_elsewhere g key
      | readguard g => rfl
  | select f =>
      refine (putBack_elsewhere _ now key (node.select now key).2).trans ?_
      exact select_elsewhere node now key
  | insert value done => exact putBack_elsewhere (.insert value) now key node
  | read f => exact select_elsewhere node now key

/-- The sizes of the entries decide what a shard counts. -/
theorem approxMemory_of_sizes {s s' : Shard D} (key : Str)
    (hsame : ∀ k, k ≠ key → s'.dbStore.lookup k = s.dbStore.lookup k)
    (hsize : (s'.dbStore.lookup key).map ValueEntry.dataSize = (s.dbStore.lookup key).map ValueEntry.dataSize) :
    s'.node.approxMemory = s.node.approxMemory := by
  rw [s'.wf.memory, s.wf.memory]
  apply congrArg UInt64.ofNat
  have herase : s'.dbStore.erase key = s.dbStore.erase key := by
    apply Finmap.ext_lookup
    intro k
    by_cases hk : k = key
    · rw [hk, Finmap.lookup_erase, Finmap.lookup_erase]
    · rw [Finmap.lookup_erase_ne hk, Finmap.lookup_erase_ne hk, hsame k hk]
  have htotal (m : Store D) : total (fun e : ValueEntry D => e.dataSize.toNat) m =
      (((m.lookup key).map ValueEntry.dataSize).map UInt64.toNat).getD 0 +
        total (fun e : ValueEntry D => e.dataSize.toNat) (m.erase key) := by
    cases hl : m.lookup key with
    | none =>
        have hself : m.erase key = m := by
          apply Finmap.ext_lookup
          intro k
          by_cases hk : k = key
          · rw [hk, Finmap.lookup_erase, hl]
          · rw [Finmap.lookup_erase_ne hk]
        rw [hself]
        exact (Nat.zero_add _).symm
    | some e => exact total_erase _ hl
  change total _ s'.dbStore = total _ s.dbStore
  rw [htotal, htotal s.dbStore, hsize, herase]

end Accounts

section Restoring

variable {S J : Type} {e : Option (ValueEntry (Value S J))}

/-- An error, or a reply that says so. -/
def Failed : Except KvError Frame → Prop
  | .error _ => True
  | .ok (.error _) => True
  | .ok _ => False

/-- What is left of an entry is as good as the entry was, and as large. -/
structure AsGood (e e' : Option (ValueEntry (Value S J))) : Prop where
  observed : Executor.observed e' = Executor.observed e
  size : e'.map ValueEntry.dataSize = e.map ValueEntry.dataSize

theorem AsGood.refl (e : Option (ValueEntry (Value S J))) : AsGood e e := ⟨rfl, rfl⟩

/-- A command that fails logs nothing and puts back what it has taken. -/
def Restores (f : Option (ValueEntry (Value S J)) → Done S × PutBack (Value S J)) : Prop :=
  ∀ e, Failed (f e).1.reply → (f e).1.aof = none ∧ AsGood e ((f e).2.result none)

theorem restored (e : ValueEntry (Value S J)) :
    AsGood (some e) ((PutBack.insert e).result none) := AsGood.refl _

variable [Host]

theorem lpush_restores (rt : Runtime) (c : LPushCommand) (values : List Bytes) :
    Restores (S := S) (J := J) (lpushTaken rt c values) := by
  rintro (_ | ⟨v, x, n⟩) h
  · cases h
  · cases v with
    | list => cases h
    | simple | hash | zset | json => exact ⟨rfl, restored _⟩

theorem lpop_restores (c : LPopCommand) : Restores (S := S) (J := J) (lpopTaken c) := by
  rintro (_ | ⟨v, x, n⟩) h
  · cases h
  · cases v with
    | list deque => cases deque <;> cases h
    | simple | hash | zset | json => exact ⟨rfl, restored _⟩

theorem blpop_restores (c : BLPopCommand) : Restores (S := S) (J := J) (blpopTaken c) := by
  rintro (_ | ⟨v, x, n⟩) h
  · cases h
  · cases v with
    | list deque => cases deque <;> cases h
    | simple | hash | zset | json => exact ⟨rfl, restored _⟩

theorem hset_restores (rt : Runtime) (c : HSetCommand) :
    Restores (S := S) (J := J) (hsetTaken rt c) := by
  rintro (_ | ⟨v, x, n⟩) h
  · cases h
  · cases v with
    | hash => cases h
    | simple | list | zset | json => exact ⟨rfl, restored _⟩

theorem hdel_restores (c : HDelCommand) : Restores (S := S) (J := J) (hdelTaken c) := by
  rintro (_ | ⟨v, x, n⟩) h
  · cases h
  · cases v with
    | hash => cases h
    | simple | list | zset | json => exact ⟨rfl, restored _⟩

theorem zadd_restores [F64 S] (rt : Runtime) (c : ZAddCommand S) :
    Restores (J := J) (zaddTaken rt c) := by
  rintro (_ | ⟨v, x, n⟩) h
  · cases h
  · cases v with
    | zset => cases h
    | simple | list | hash | json => exact ⟨rfl, restored _⟩

theorem zrem_restores [F64 S] (c : ZRemCommand) : Restores (S := S) (J := J) (zremTaken c) := by
  rintro (_ | ⟨v, x, n⟩) h
  · cases h
  · cases v with
    | zset z =>
        simp only [zremTaken] at h
        revert h
        rcases z.delete c.member with ⟨_ | _, z'⟩ <;> rintro ⟨⟩
    | simple | list | hash | json => exact ⟨rfl, restored _⟩

/-- JSON.SET at a path that does not exist puts the document back with a size of 0,
which only the entry's own size is measured without. -/
theorem jsonSet_restores [SerdeJson J] (c : JsonSetCommand) (v : J) :
    Restores (S := S) (jsonSetTaken c v) := by
  rintro (_ | ⟨w, x, n⟩) h
  · simp only [jsonSetTaken] at h ⊢
    split at h
    · cases h
    · next hr =>
        rw [if_neg hr]
        exact ⟨rfl, AsGood.refl _⟩
  · cases w with
    | json root size =>
        simp only [jsonSetTaken] at h ⊢
        split at h
        · cases h
        · next hr =>
            rw [if_neg hr]
            revert h
            cases SerdeJson.assign root c.path v with
            | some root' => rintro ⟨⟩
            | none => exact fun _ => ⟨rfl, rfl, rfl⟩
    | simple | list | hash | zset => exact ⟨rfl, restored _⟩

theorem set_succeeds (now at' : Nat) (c : SetCommand) (e : Option (ValueEntry (Value S J))) :
    ¬ Failed ((setAccess (S := S) at' c).onCell now e).1.reply := by
  intro h
  cases hc : c.condition with
  | none =>
      rw [setAccess, hc] at h
      cases h
  | some condition =>
      rw [setAccess, hc] at h
      simp only [Access.onCell] at h
      revert h
      cases condition <;> cases (unlessExpired now e).isSome <;> rintro ⟨⟩

theorem keyed_failed [F64 S] [SerdeJson J] {rt : Runtime} {at' : Nat} {values : LPushCommand → List Bytes}
    {c : Command S} {key : Str} {a : Access S (Value S J)} (hk : keyed rt at' values c = some (key, a))
    (now : Nat) (e : Option (ValueEntry (Value S J))) (h : Failed (a.onCell now e).1.reply) :
    (a.onCell now e).1.aof = none ∧ AsGood e (a.onCell now e).2 := by
  cases c with
  | get | hget | jsonGet | zscore | zrank | zrange =>
      cases hk
      exact ⟨rfl, AsGood.refl e⟩
  | set c =>
      cases hk
      exact absurd h (set_succeeds now at' c e)
  | lpush c =>
      cases hk
      unfold lpushAccess at h ⊢
      split at h
      · rcases hu : unlessExpired now e with _ | ⟨v, x, n⟩
        · simp only [Access.onCell, hu] at h
          cases h
        · simp only [Access.onCell, hu] at h
          cases v <;> cases h
      · next hne =>
          rw [if_neg hne]
          exact lpush_restores rt c (values c) e h
  | lpop c =>
      cases hk
      exact lpop_restores c e h
  | blpop c =>
      cases hk
      exact blpop_restores c e h
  | hset c =>
      cases hk
      exact hset_restores rt c e h
  | hdel c =>
      cases hk
      exact hdel_restores c e h
  | jsonSet c =>
      obtain ⟨v, hv, hp⟩ := Option.map_eq_some_iff.mp hk
      cases hp
      exact jsonSet_restores c v e h
  | zadd c =>
      cases hk
      exact zadd_restores rt c e h
  | zrem c =>
      cases hk
      exact zrem_restores c e h
  | mset | mget | ping | unimplement | eval | multi | exec | multiGroup => cases hk

end Restoring

section Databases

variable {S J : Type} [Host]

/-- The data, the counters and the log are as they were before the command. -/
structure Untouched (db : Db (Value S J)) (r : Done S × Db (Value S J)) : Prop where
  values : ∀ k, observed (r.2.entry k) = observed (db.entry k)
  approxMemory : ∀ i, (r.2.shards i).node.approxMemory = (db.shards i).node.approxMemory
  globalMemory : r.2.globalMemory = db.globalMemory
  aof : r.1.aof = none

theorem untouched (db : Db (Value S J)) {d : Done S} (h : d.aof = none) : Untouched db (d, db) :=
  ⟨fun _ => rfl, fun _ => rfl, rfl, h⟩

theorem access_guard {D : Type} (db : Db D) (now : Nat) (key : Str) (a : Access S D) :
    ∃ g, (db.access now key a).2 = db.unlock (Host.shardIndex key) g ∧
      elsewhere g = elsewhere (db.lock (Host.shardIndex key)) ∧
      ∀ k, g.shard.dbStore.lookup k = if k = key then (a.onCell now (db.entry key)).2
        else (db.shards (Host.shardIndex key)).dbStore.lookup k := by
  cases hr : a.reads with
  | false =>
      obtain ⟨g, hg, hlookup⟩ := run_writeguard hr now key (db.lock (Host.shardIndex key))
      have helse := run_elsewhere a now key (.writeguard (db.lock (Host.shardIndex key)))
      rw [hg] at helse
      refine ⟨g, ?_, helse, hlookup⟩
      simp only [Db.access, hr, Bool.false_eq_true, if_false, hg]
      rfl
  | true =>
      cases a with
      | read f =>
          obtain ⟨g, hg, hstore⟩ := run_readguard (S := S) f now key (db.lock (Host.shardIndex key))
          have helse := run_elsewhere (.read f : Access S D) now key (.readguard (db.lock (Host.shardIndex key)))
          rw [hg] at helse
          refine ⟨g, ?_, helse, fun k => ?_⟩
          · simp only [Db.access, hr, if_true, hg]
            rfl
          · rw [hstore]
            split
            · next hk =>
                rw [hk]
                rfl
            · rfl
      | take | select | insert => cases hr

/-- A command that leaves the entry of its key as large as it was leaves the counters. -/
theorem access_counters {D : Type} (db : Db D) (now : Nat) (key : Str) (a : Access S D)
    (h : (a.onCell now (db.entry key)).2.map ValueEntry.dataSize = (db.entry key).map ValueEntry.dataSize) :
    (∀ i, ((db.access now key a).2.shards i).node.approxMemory = (db.shards i).node.approxMemory) ∧
      (db.access now key a).2.globalMemory = db.globalMemory := by
  obtain ⟨g, hg, helse, hlookup⟩ := access_guard db now key a
  have happrox : g.shard.node.approxMemory = (db.shards (Host.shardIndex key)).node.approxMemory := by
    apply approxMemory_of_sizes key
    · intro k hk
      rw [hlookup, if_neg hk]
    · rw [hlookup, if_pos rfl]
      exact h
  rw [hg]
  constructor
  · intro i
    by_cases hi : i = Host.shardIndex key
    · subst hi
      simp only [Db.unlock, Function.update_self]
      exact happrox
    · simp only [Db.unlock, Function.update_of_ne hi]
  · have hsum : g.globalMemory - g.shard.node.approxMemory =
        db.globalMemory - (db.shards (Host.shardIndex key)).node.approxMemory := helse
    rw [happrox] at hsum
    exact sub_left_injective hsum

variable [F64 S] [SerdeJson J]

theorem untouched_keyed {rt : Runtime} {at' now : Nat} {values : LPushCommand → List Bytes} {c : Command S}
    {key : Str} {a : Access S (Value S J)} (hk : keyed rt at' values c = some (key, a))
    (db : Db (Value S J)) (h : Failed (db.access now key a).1.reply) : Untouched db (db.access now key a) := by
  obtain ⟨hdone, hentry⟩ := db.access_spec now key a
  rw [hdone] at h
  obtain ⟨haof, hkept⟩ := keyed_failed hk now (db.entry key) h
  obtain ⟨happrox, hglobal⟩ := access_counters db now key a hkept.size
  refine ⟨fun k => ?_, happrox, hglobal, ?_⟩
  · rw [hentry]
    split
    · next hkey =>
        rw [hkey]
        exact hkept.observed
    · rfl
  · rw [hdone]
    exact haof

/-- The keys a command is about have no client that waits in BLPOP. -/
def Unwaited (queues : Queues) (c : Command S) : Prop := ∀ key ∈ touched c, NoWaiting queues key

omit [Host] [SerdeJson J] [F64 S] in
theorem Unwaited.values {queues : Queues} {c : LPushCommand} (h : Unwaited queues (.lpush c : Command S)) :
    unserved queues c = c.values := by
  have hgone := handOff_gone (h c.key (by simp [touched]))
  rw [unserved, hgone]

theorem answer_unwaited {rt : Runtime} {now : Nat} {queues : Queues} {c : Command S}
    (h : Unwaited queues c) (db : Db (Value S J)) : answer rt now queues db c = execute rt now db c := by
  cases c with
  | lpush c =>
      change db.access now c.key (lpushAccess rt c (unserved queues c)) = _
      rw [h.values]
      rfl
  | get | set | ping | unimplement | eval | lpop | blpop | hset | hget | hdel | mset | mget | multi | exec
  | multiGroup | jsonSet | jsonGet | zadd | zscore | zrank | zrange | zrem => rfl

theorem execute_failed (rt : Runtime) (now : Nat) (db : Db (Value S J)) (c : Command S)
    (h : Failed (execute rt now db c).1.reply) : Untouched db (execute rt now db c) := by
  cases hk : keyed (J := J) rt now (fun c => c.values) c with
  | some p =>
      obtain ⟨key, a⟩ := p
      rw [execute_keyed hk] at h ⊢
      exact untouched_keyed hk db h
  | none =>
      cases c with
      | mset c =>
          rw [(db.execute_entry rt now (.mset c)).1, execute_mset] at h
          cases h
      | mget c =>
          rw [(db.execute_entry rt now (.mget c)).1] at h
          change Failed ((mgetAll (S := S) now db.entry c.keys).1.map Frame.array) at h
          rw [mgetAll_reply] at h
          cases h
      | jsonSet c =>
          have hv : SerdeJson.fromStr (J := J) c.value = none := Option.map_eq_none_iff.mp hk
          simp only [execute, executeJsonSet, hv]
          exact untouched db rfl
      | ping | unimplement | eval | multi | exec | multiGroup => exact untouched db rfl
      | get | set | lpush | lpop | blpop | hset | hget | hdel | jsonGet | zadd | zscore | zrank | zrange
      | zrem => cases hk

theorem Server.execute_aof (s : Server S J) (rt : Runtime) (c : Command S) :
    (s.execute rt c).aof = s.aof ++
      ((answer rt s.now s.blockingQueues s.db c).1.aof.bind (AofEncoder.encodeAofCommand s.now)).toList := by
  cases c <;> rfl

/-- A command that fails leaves values, expirations, counters and the log alone, for a
client when nobody waits for its keys and in the recovery. -/
theorem failed_untouched (rt : Runtime) (s : Server S J) (c : Command S) :
    ((∀ e, c ≠ .eval e) → Unwaited s.blockingQueues c →
      Failed (answer rt s.now s.blockingQueues s.db c).1.reply →
      Untouched s.db (answer rt s.now s.blockingQueues s.db c) ∧ (s.execute rt c).aof = s.aof) ∧
    (Failed (execute rt s.now s.db c).1.reply → Untouched s.db (execute rt s.now s.db c)) := by
  refine ⟨fun _ hq h => ?_, execute_failed rt s.now s.db c⟩
  have huntouched : Untouched s.db (answer rt s.now s.blockingQueues s.db c) := by
    rw [answer_unwaited hq] at h ⊢
    exact execute_failed rt s.now s.db c h
  refine ⟨huntouched, ?_⟩
  rw [Server.execute_aof, huntouched.aof]
  exact List.append_nil _

end Databases

section Sample

attribute [local instance] singleShard wholeScore flatJson

/-- A server with a string that an LPUSH finds. -/
def sampleServer : Server UInt64 Str where
  db := expiredDb
  blockingQueues := ∅
  handed := []
  now := 0
  aof := []

theorem failed_push_untouched :
    Failed (answer sampleRuntime 0 ∅ expiredDb samplePush).1.reply ∧
      (∀ k, observed ((sampleServer.execute sampleRuntime samplePush).db.entry k) = observed (expiredDb.entry k)) ∧
      (sampleServer.execute sampleRuntime samplePush).aof = [] := by
  have hfailed : Failed (answer sampleRuntime 0 ∅ expiredDb samplePush).1.reply := trivial
  obtain ⟨huntouched, haof⟩ := (failed_untouched sampleRuntime sampleServer samplePush).1
    (by rintro e ⟨⟩) (by rintro key - waiters hw; cases hw) hfailed
  refine ⟨hfailed, fun k => ?_, haof⟩
  rw [Expiry.Server.execute_db]
  exact huntouched.values k

end Sample

end RustKv.Failures
