import RustKv.AofEncoder
import RustKv.Executor

namespace RustKv.Normal

open Text Protocol Domain CacheStore Zset RustKv.Types Executor AofEncoder

section Eviction

variable {D : Type}

def popVictim (s : Shard D) : Option Str × Shard D :=
  Shard.outcome ((s.node.evicition.popVictim).map (fun r => (r.1, { s.node with evicition := r.2 }))) (by
    obtain ⟨v, e, he, wf, htracked, -⟩ := Eviction.EvictionStrategy.popVictim_spec s.wf.policy
    exact ⟨v, { s.node with evicition := e }, by rw [he]; rfl, wf,
      fun k => by rw [htracked]; exact s.wf.keys k, s.wf.memory⟩)

/-- One round of eviction_ttl on a shard, when the drawn index is `sample`. -/
def evictionTtl (now sample : Nat) (g : Guard D) : Guard D :=
  if g.shard.node.approxMemory = 0 then g
  else
    match g.shard.node.evicition.getRandomSampleKey sample with
    | none => g
    | some key =>
        match DirectCacheNode.select (.writeguard g) now key with
        | (some value, node) => if value.isExpired now then (node.delete key).guard else node.guard
        | (none, node) => node.guard

/-- One deletion of eviction_memory on a shard. -/
def evictionMemory (g : Guard D) : Guard D :=
  match popVictim g.shard with
  | (some key, shard) => (DirectCacheNode.delete (.writeguard { g with shard := shard }) key).guard
  | (none, shard) => { g with shard := shard }

end Eviction

/-- The sender a BLPOP leaves in the queue of its key: its receiver waits, or has
given up. -/
inductive Waiter
  | waiting
  | gone
  deriving DecidableEq, Repr

/-- The first loop of LPUSH: the waiters left, the items that were sent, and those
that are still to be pushed. -/
def serve : List Waiter → List Bytes → List Waiter × List Bytes × List Bytes
  | waiters, [] => (waiters, [], [])
  | waiters, item :: items =>
      match waiters.dropWhile (fun w => decide (w = .gone)) with
      | _ :: waiters =>
          let (waiters, sent, push) := serve waiters items
          (waiters, item :: sent, push)
      | [] =>
          let (waiters, sent, push) := serve [] items
          (waiters, sent, item :: push)

abbrev Queues := Finmap (fun _ : Str => List Waiter)

def handOff (queues : Queues) (c : LPushCommand) : Queues × List Bytes × List Bytes :=
  match queues.lookup c.key with
  | some waiters =>
      let (waiters, sent, push) := serve waiters c.values
      (if waiters = [] then queues.erase c.key else queues.insert c.key waiters, sent, push)
  | none => (queues, [], c.values)

variable {S J : Type} [Host]

/-- A server: its data, the queues of waiting clients, the items that were sent to
waiting clients and not yet logged by them, the cached clock, and the messages
that went to the log. -/
structure Server (S J : Type) where
  db : Db (Value S J)
  blockingQueues : Queues
  handed : List (Str × Bytes)
  now : Nat
  aof : List Bytes

def Server.new (configType : Eviction.EvictionType) (now : Nat) : Server S J where
  db := Db.new configType
  blockingQueues := ∅
  handed := []
  now := now
  aof := []

variable [F64 S] [SerdeJson J]

def Server.sendAof (s : Server S J) (cmd : Option (Command S)) : Server S J :=
  { s with aof := s.aof ++ (cmd.bind (encodeAofCommand s.now)).toList }

def Server.execute (s : Server S J) (rt : Runtime) : Command S → Server S J
  | .lpush c =>
      let (queues, sent, valuesToPush) := handOff s.blockingQueues c
      let (done, db) := s.db.access s.now c.key (lpushAccess rt c valuesToPush)
      { s with
        db := db
        blockingQueues := queues
        handed := s.handed ++ sent.map (fun item => (c.key, item)) }.sendAof done.aof
  | .blpop c =>
      let (done, db) := s.db.access s.now c.key (.take (blpopTaken c))
      { s with
        db := db
        blockingQueues :=
          if done.waits then
            s.blockingQueues.insert c.key ((s.blockingQueues.lookup c.key).getD [] ++ [Waiter.waiting])
          else s.blockingQueues }.sendAof done.aof
  | c =>
      let (done, db) := Executor.execute rt s.now s.db c
      { s with db := db }.sendAof done.aof

inductive Event (S : Type) [Host]
  | command (rt : Runtime) (c : Command S)
  | timeout (key : Str) (i : Nat)
  | wake (i : Nat)
  | tick (now : Nat)
  | evictionTtl (shard : Fin Host.numShards) (sample : Nat)
  | evictionMemory (shard : Fin Host.numShards)

def Server.step (s : Server S J) : Event S → Server S J
  | .command rt c => s.execute rt c
  | .timeout key i =>
      match s.blockingQueues.lookup key with
      | some waiters => { s with blockingQueues := s.blockingQueues.insert key (waiters.set i .gone) }
      | none => s
  | .wake i =>
      match s.handed[i]? with
      | some (key, _) => { s with handed := s.handed.eraseIdx i }.sendAof (some (.lpop ⟨key⟩))
      | none => s
  | .tick now => { s with now := now }
  | .evictionTtl i sample => { s with db := s.db.unlock i (Normal.evictionTtl s.now sample (s.db.lock i)) }
  | .evictionMemory i => { s with db := s.db.unlock i (Normal.evictionMemory (s.db.lock i)) }

def Server.run (s : Server S J) (events : List (Event S)) : Server S J := events.foldl Server.step s

end RustKv.Normal
