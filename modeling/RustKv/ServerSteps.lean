import Mathlib.Data.List.TakeWhile
import RustKv.RecoveryReads
import RustKv.LogicalStep
import RustKv.Server

namespace RustKv.Normal

open Text Protocol Domain CacheStore Zset RustKv.Types Executor AofEncoder AofRoundTrip RequestReading Recovery

section Waiting

/-- Nobody waits for an item of the key any more. -/
def NoWaiting (queues : Queues) (key : Str) : Prop :=
  ∀ waiters, queues.lookup key = some waiters → ∀ w ∈ waiters, w = Waiter.gone

theorem serve_gone {waiters : List Waiter} (h : ∀ w ∈ waiters, w = Waiter.gone) (items : List Bytes) :
    (serve waiters items).2 = ([], items) := by
  induction items generalizing waiters with
  | nil => rfl
  | cons item items ih =>
      have hdrop : waiters.dropWhile (fun w => decide (w = Waiter.gone)) = [] := by
        rw [List.dropWhile_eq_nil_iff]
        intro w hw
        simp [h w hw]
      have hnil : (serve [] items).2 = ([], items) := ih (by simp)
      simp only [serve, hdrop, hnil]

theorem handOff_gone {queues : Queues} {c : LPushCommand} (h : NoWaiting queues c.key) :
    (handOff queues c).2 = ([], c.values) := by
  unfold handOff
  cases hq : queues.lookup c.key with
  | none => rfl
  | some waiters => simp only [serve_gone (h waiters hq)]

end Waiting

section Eviction

variable {D : Type}

theorem popVictim_dbStore (s : Shard D) : (popVictim s).2.dbStore = s.dbStore := by
  obtain ⟨v, e, he, -⟩ := Eviction.EvictionStrategy.popVictim_spec s.wf.policy
  have h : (s.node.evicition.popVictim).map (fun r => (r.1, { s.node with evicition := r.2 })) =
      some (v, { s.node with evicition := e }) := by rw [he]; rfl
  rw [Shard.dbStore, popVictim, (outcome_eq h).2]
  rfl

/-- Eviction leaves an entry as it is or removes it. -/
def Evicts (g g' : Guard D) : Prop :=
  ∀ k, g'.shard.dbStore.lookup k = g.shard.dbStore.lookup k ∨ g'.shard.dbStore.lookup k = none

theorem evicts_of_eq {g g' : Guard D} (key : Str) {e : Option (ValueEntry D)}
    (h : ∀ k, g'.shard.dbStore.lookup k = if k = key then e else g.shard.dbStore.lookup k)
    (he : e = g.shard.dbStore.lookup key ∨ e = none) : Evicts g g' := by
  intro k
  rw [h]
  split
  · next hk => rwa [hk]
  · exact .inl rfl

theorem evictionMemory_evicts (g : Guard D) : Evicts g (evictionMemory g) := by
  unfold evictionMemory
  have hstore := popVictim_dbStore g.shard
  cases hp : popVictim g.shard with
  | mk v shard =>
      rw [hp] at hstore
      cases v with
      | none =>
          intro k
          exact .inl (by rw [hstore])
      | some key =>
          refine evicts_of_eq key (e := none) (fun k => ?_) (.inr rfl)
          refine (removeGuard_lookup { g with shard := shard } key k).trans ?_
          rw [hstore]

theorem evictionTtl_evicts (now sample : Nat) (g : Guard D) : Evicts g (evictionTtl now sample g) := by
  have hself : Evicts g g := fun k => .inl rfl
  unfold evictionTtl
  split
  · exact hself
  · split
    · exact hself
    · next key _ =>
        obtain ⟨g', hsel, hlookup⟩ := select_writeguard g now key
        have hlive : live now g.shard.dbStore key = g.shard.dbStore.lookup key ∨
            live now g.shard.dbStore key = none := unlessExpired_cases now _
        rw [hsel]
        cases hv : live now g.shard.dbStore key with
        | none => exact evicts_of_eq key hlookup hlive
        | some value =>
            simp only
            split
            · refine evicts_of_eq key (e := none) (fun k => ?_) (.inr rfl)
              refine (removeGuard_lookup g' key k).trans ?_
              rw [hlookup]
              split <;> rfl
            · exact evicts_of_eq key hlookup hlive

end Eviction

variable {S J : Type} [Host] [F64 S] [SerdeJson J]

theorem entry_evicted {D : Type} (db : Db D) {i : Fin Host.numShards} {g : Guard D}
    (h : Evicts (db.lock i) g) (k : Str) :
    (db.unlock i g).entry k = db.entry k ∨ (db.unlock i g).entry k = none := by
  simp only [Db.entry, Db.unlock]
  by_cases hi : Host.shardIndex k = i
  · rw [hi, Function.update_self]
    exact h k
  · rw [Function.update_of_ne hi]
    exact .inl rfl

/-- A command a client sends that runs no script. -/
def Sent (c : Command S) : Prop := Parsed c ∧ ∀ e, c ≠ .eval e

/-- No client waits for what an LPUSH pushes. -/
def Unawaited (queues : Queues) : Command S → Prop
  | .lpush c => NoWaiting queues c.key
  | _ => True

/-- A command that hands no item to a waiting client does to the entries and to
the log what executing it does. -/
theorem Server.execute_entry (s : Server S J) (rt : Runtime) {c : Command S}
    (hc : Unawaited s.blockingQueues c) :
    (s.execute rt c).db.entry = (Executor.execute rt s.now s.db.entry c).2 ∧
      (s.execute rt c).aof = s.aof ++
        ((Executor.execute rt s.now s.db.entry c).1.aof.bind (encodeAofCommand s.now)).toList ∧
      (s.execute rt c).now = s.now ∧ (s.execute rt c).handed = s.handed := by
  obtain ⟨hdone, hentry⟩ := Db.execute_entry rt s.now s.db c
  rw [← hdone, ← hentry]
  cases c with
  | lpush c =>
      have hoff := handOff_gone hc
      simp only [Server.execute, hoff, List.map_nil, List.append_nil]
      exact ⟨rfl, rfl, rfl, rfl⟩
  | blpop c => exact ⟨rfl, rfl, rfl, rfl⟩
  | get | set | ping | unimplement | eval | lpop | hset | hget | hdel | mset | mget | multi | exec
  | multiGroup | jsonSet | jsonGet | zadd | zscore | zrank | zrange | zrem => exact ⟨rfl, rfl, rfl, rfl⟩

theorem parsed_lpop {key : Str} (h : Fits (.bulk key.bytes)) : Parsed (Command.lpop (S := S) ⟨key⟩) := by
  have hframe : Fits (.array [.bulk (ascii ['L', 'P', 'O', 'P']), .bulk key.bytes]) :=
    ⟨by simp, by simp [Fits, ascii], h, trivial⟩
  exact parsed_of_aofFrame (show aofFrame 0 (Command.lpop (S := S) ⟨key⟩) = some _ from rfl) trivial hframe

/-- What a command hands to send_aof is a command that a client could have sent. -/
theorem logged_written {c d : Command S} (hc : Parsed c) {rt : Runtime} {now : Nat}
    {m : Cells (Value S J)} (ha : (Executor.execute rt now m c).1.aof = some d) :
    (LogRecord.single now d).Written ∧ (Loggable now c → (LogRecord.single now d).Readable) := by
  rcases command_cases (J := J) hc with hq | ⟨s, rfl⟩ | ⟨s, rfl⟩ | ⟨b, rfl⟩ | ⟨key, f, ht⟩
  · rw [(hq.onCells rt now m).2] at ha
    cases ha
  · rcases set_result now now s (m s.key) with ⟨ha', -⟩ | ⟨ha', -⟩
    · cases ha.symm.trans ha'
      exact ⟨⟨hc, rfl⟩, id⟩
    · cases ha'.symm.trans ha
  · rw [execute_mset] at ha
    cases ha
    exact ⟨⟨hc, rfl⟩, id⟩
  · obtain ⟨rfl, -⟩ := (blpop_faithful b).logged (m b.key) d ha
    obtain ⟨iter, ⟨rest, rfl⟩, hfit, -⟩ := hc.readFrom
    exact ⟨⟨parsed_lpop hfit.1, rfl⟩, fun _ => trivial⟩
  · rw [ht.onCells] at ha
    obtain ⟨rfl, -⟩ := (ht.faithful rt).logged _ d ha
    exact ⟨⟨hc, ht.writes now⟩, id⟩

end RustKv.Normal
