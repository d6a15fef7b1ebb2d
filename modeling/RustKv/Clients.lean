import RustKv.Server
import RustKv.Scripts
import RustKv.LuaOverlay

namespace RustKv.Clients

open Text Protocol Domain CacheStore Zset RustKv.Types Executor AofEncoder

/-- The channel between a waiting BLPOP and the LPUSH that serves it: the receiver
is there and has got nothing, it has got an item, or it is gone. -/
inductive Channel
  | pending
  | full (item : Bytes)
  | closed
  deriving DecidableEq, Repr

inductive Instr (S J : Type)
  | lockShard (key : Str)
  | access (key : Str) (a : Access S (Value S J))
  | unlockShard (key : Str)
  | sendAof
  | lockQueues
  | offer (key : Str) (item : Bytes)
  | unlockQueues
  | push (rt : Runtime) (c : LPushCommand)
  | check (c : BLPopCommand)
  | register (c : BLPopCommand)
  | await (c : BLPopCommand)

/-- A command in progress: the steps it has left, what its last access gave back, the
items of an LPUSH that found no waiting client, and the channel of a BLPOP. -/
structure Task (S J : Type) where
  command : Command S
  code : List (Instr S J)
  done : Done S
  valuesToPush : List Bytes
  ticket : Nat

/-- How far an EVAL is: it locks its shards one by one, makes its calls when it has
them all, and commits its shards one by one before it lets go of any. -/
inductive Phase [Host]
  | locking (shards : List (Fin Host.numShards))
  | committing (shards : List (Fin Host.numShards))

/-- A client: between commands, in one, in a BLPOP that waits, in one whose timeout
has elapsed and that still has its receiver, or in a script. -/
inductive Client (S J : Type) [Host]
  | idle
  | running (t : Task S J)
  | waiting (c : BLPopCommand) (ticket : Nat)
  | elapsed (c : BLPopCommand) (ticket : Nat)
  | script (phase : Phase) (env : Lua.CurrentRequestEnv (Sessions (Value S J)) S)

variable {I S J : Type} [Host]

/-- The server as its clients share it: the data with the lock of each shard, the
queues of waiting clients with their lock, the channels handed out so far and the
keys they are for, the messages to the log, and the replies in the order in which
commands end. -/
structure Machine (I S J : Type) [Host] where
  db : Db (Value S J)
  now : Nat
  locks : Fin Host.numShards → Option I
  queuesLock : Option I
  queues : Str → List Nat
  channels : Nat → Channel
  channelKeys : Nat → Str
  tickets : Nat
  clients : I → Client S J
  aof : List Bytes
  replies : List (I × Command S × Except KvError Frame)

def underLock (key : Str) (a : Access S (Value S J)) : List (Instr S J) :=
  [.lockShard key, .access key a, .sendAof, .unlockShard key]

section Programs

variable [F64 S] [SerdeJson J]

def msetPair (c : MSetCommand) (p : Str × Bytes) : List (Instr S J) :=
  [.lockShard p.1, .access p.1 (.insert (msetEntry p.2) (.logged okFrame (.mset c))), .unlockShard p.1]

def pushCode (rt : Runtime) (c : LPushCommand) : List (Instr S J) :=
  [.unlockQueues, .lockShard c.key, .push rt c, .unlockShard c.key, .sendAof]

/-- The steps of a command in the Normal context, and what it gives back before the
first of them. -/
def program (rt : Runtime) (now : Nat) : Command S → Option (List (Instr S J) × Done S)
  | .set c => some (underLock c.key (setAccess now c), .ok .null)
  | .lpop c => some (underLock c.key (.take (lpopTaken c)), .ok .null)
  | .hset c => some (underLock c.key (.take (hsetTaken rt c)), .ok .null)
  | .hdel c => some (underLock c.key (.take (hdelTaken c)), .ok .null)
  | .zadd c => some (underLock c.key (.take (zaddTaken rt c)), .ok .null)
  | .zrem c => some (underLock c.key (.take (zremTaken c)), .ok .null)
  | .jsonSet c =>
      match SerdeJson.fromStr c.value with
      | some newJsonVal => some (underLock c.key (.take (jsonSetTaken c newJsonVal)), .ok .null)
      | none => some ([], .err "Invalid JSON value")
  | .lpush c => some (.lockQueues :: c.values.map (.offer c.key) ++ pushCode rt c, .ok .null)
  | .blpop c => some ([.lockShard c.key, .check c, .unlockShard c.key, .sendAof], .ok .null)
  | .mset c => some ((sortedPairs c).flatMap (msetPair c) ++ [.sendAof], .logged okFrame (.mset c))
  | _ => none

end Programs

def waitCode (c : BLPopCommand) : List (Instr S J) :=
  [.lockQueues, .register c, .unlockQueues, .unlockShard c.key, .await c]

inductive Label (I S : Type) [Host]
  | start (i : I) (c : Command S)
  | go (i : I)
  | receive (i : I)
  | elapse (i : I)
  | drop (i : I)
  | tick (now : Nat)
  | eval (i : I) (keys : List Str)
  | lockScript (i : I)
  | call (i : I) (c : Lua.Call)
  | succeed (i : I)
  | fail (i : I)
  | commit (i : I)
  | release (i : I) (shard : Fin Host.numShards)
  | endScript (i : I)

section Machines

variable [DecidableEq I]

def Machine.set (m : Machine I S J) (i : I) (x : Client S J) : Machine I S J :=
  { m with clients := Function.update m.clients i x }

def Machine.run (m : Machine I S J) (i : I) (t : Task S J) (code : List (Instr S J)) : Machine I S J :=
  m.set i (.running { t with code := code })

def Machine.setLock (m : Machine I S J) (shard : Fin Host.numShards) (x : Option I) : Machine I S J :=
  { m with locks := Function.update m.locks shard x }

def Machine.accessed (m : Machine I S J) (i : I) (t : Task S J) (code : List (Instr S J)) (key : Str)
    (a : Access S (Value S J)) : Machine I S J :=
  { m with
    db := (m.db.access m.now key a).2
    clients := Function.update m.clients i
      (.running { t with code := code, done := (m.db.access m.now key a).1 }) }

def Machine.reply (m : Machine I S J) (i : I) (c : Command S) (reply : Except KvError Frame) :
    Machine I S J :=
  { m with
    clients := Function.update m.clients i .idle
    replies := m.replies ++ [(i, c, reply)] }

variable [F64 S] [SerdeJson J]

inductive Step : Machine I S J → Label I S → Machine I S J → Prop
  | start {m : Machine I S J} {i : I} {c : Command S} {rt : Runtime} {code : List (Instr S J)}
      {done : Done S} (h : m.clients i = .idle) (hc : program rt m.now c = some (code, done)) :
      Step m (.start i c) (m.set i (.running ⟨c, code, done, [], 0⟩))
  | lockShard {m : Machine I S J} {i : I} {t : Task S J} {key : Str} {code : List (Instr S J)}
      (h : m.clients i = .running t) (hc : t.code = .lockShard key :: code)
      (hfree : m.locks (Host.shardIndex key) = none) :
      Step m (.go i) ((m.run i t code).setLock (Host.shardIndex key) (some i))
  | access {m : Machine I S J} {i : I} {t : Task S J} {key : Str} {a : Access S (Value S J)}
      {code : List (Instr S J)} (h : m.clients i = .running t) (hc : t.code = .access key a :: code) :
      Step m (.go i) (m.accessed i t code key a)
  | unlockShard {m : Machine I S J} {i : I} {t : Task S J} {key : Str} {code : List (Instr S J)}
      (h : m.clients i = .running t) (hc : t.code = .unlockShard key :: code) :
      Step m (.go i) ((m.run i t code).setLock (Host.shardIndex key) none)
  | sendAof {m : Machine I S J} {i : I} {t : Task S J} {code : List (Instr S J)}
      (h : m.clients i = .running t) (hc : t.code = .sendAof :: code) :
      Step m (.go i) { m.run i t code with
        aof := m.aof ++ (t.done.aof.bind (encodeAofCommand m.now)).toList }
  | lockQueues {m : Machine I S J} {i : I} {t : Task S J} {code : List (Instr S J)}
      (h : m.clients i = .running t) (hc : t.code = .lockQueues :: code) (hfree : m.queuesLock = none) :
      Step m (.go i) { m.run i t code with queuesLock := some i }
  | offerNone {m : Machine I S J} {i : I} {t : Task S J} {key : Str} {item : Bytes}
      {code : List (Instr S J)} (h : m.clients i = .running t) (hc : t.code = .offer key item :: code)
      (hq : m.queues key = []) :
      Step m (.go i) (m.run i { t with valuesToPush := t.valuesToPush ++ [item] } code)
  | offerSent {m : Machine I S J} {i : I} {t : Task S J} {key : Str} {item : Bytes}
      {code : List (Instr S J)} {n : Nat} {queue : List Nat} (h : m.clients i = .running t)
      (hc : t.code = .offer key item :: code) (hq : m.queues key = n :: queue)
      (hn : m.channels n = .pending) :
      Step m (.go i) { m.run i t code with
        queues := Function.update m.queues key queue
        channels := Function.update m.channels n (.full item) }
  | offerGone {m : Machine I S J} {i : I} {t : Task S J} {key : Str} {item : Bytes}
      {code : List (Instr S J)} {n : Nat} {queue : List Nat} (h : m.clients i = .running t)
      (hc : t.code = .offer key item :: code) (hq : m.queues key = n :: queue)
      (hn : m.channels n ≠ .pending) :
      Step m (.go i) { m with queues := Function.update m.queues key queue }
  | unlockQueues {m : Machine I S J} {i : I} {t : Task S J} {code : List (Instr S J)}
      (h : m.clients i = .running t) (hc : t.code = .unlockQueues :: code) :
      Step m (.go i) { m.run i t code with queuesLock := none }
  | push {m : Machine I S J} {i : I} {t : Task S J} {rt : Runtime} {c : LPushCommand}
      {code : List (Instr S J)} (h : m.clients i = .running t) (hc : t.code = .push rt c :: code) :
      Step m (.go i) (m.accessed i t code c.key (lpushAccess rt c t.valuesToPush))
  | check {m : Machine I S J} {i : I} {t : Task S J} {c : BLPopCommand} {code : List (Instr S J)}
      (h : m.clients i = .running t) (hc : t.code = .check c :: code) :
      Step m (.go i) (m.accessed i t
        (if (m.db.access m.now c.key (.take (blpopTaken c) : Access S _)).1.waits then waitCode c else code)
        c.key (.take (blpopTaken c)))
  | register {m : Machine I S J} {i : I} {t : Task S J} {c : BLPopCommand} {code : List (Instr S J)}
      (h : m.clients i = .running t) (hc : t.code = .register c :: code) :
      Step m (.go i) { m.run i { t with ticket := m.tickets } code with
        queues := Function.update m.queues c.key (m.queues c.key ++ [m.tickets])
        channels := Function.update m.channels m.tickets .pending
        channelKeys := Function.update m.channelKeys m.tickets c.key
        tickets := m.tickets + 1 }
  | await {m : Machine I S J} {i : I} {t : Task S J} {c : BLPopCommand} {code : List (Instr S J)}
      (h : m.clients i = .running t) (hc : t.code = .await c :: code) :
      Step m (.go i) (m.set i (.waiting c t.ticket))
  | finish {m : Machine I S J} {i : I} {t : Task S J} (h : m.clients i = .running t) (hc : t.code = []) :
      Step m (.go i) (m.reply i t.command t.done.reply)
  | receive {m : Machine I S J} {i : I} {c : BLPopCommand} {n : Nat} {item : Bytes}
      (h : m.clients i = .waiting c n) (hn : m.channels n = .full item) :
      Step m (.receive i) { m.set i (.running ⟨.blpop c, [.sendAof],
          .logged (.array [.bulk c.key.bytes, .bulk item]) (.lpop ⟨c.key⟩), [], n⟩) with
        channels := Function.update m.channels n .closed }
  | elapse {m : Machine I S J} {i : I} {c : BLPopCommand} {n : Nat}
      (h : m.clients i = .waiting c n) (hn : m.channels n = .pending) (ht : c.timeout ≠ 0) :
      Step m (.elapse i) (m.set i (.elapsed c n))
  | drop {m : Machine I S J} {i : I} {c : BLPopCommand} {n : Nat} (h : m.clients i = .elapsed c n) :
      Step m (.drop i) { m.reply i (.blpop c) (.ok .null) with
        channels := Function.update m.channels n .closed }
  | tick {m : Machine I S J} {now : Nat} : Step m (.tick now) { m with now := now }
  | eval {m : Machine I S J} {i : I} {keys : List Str} (h : m.clients i = .idle) :
      Step m (.eval i keys) (m.set i (.script (.locking (Lua.shardIndices keys)) ⟨∅, []⟩))
  | lockScript {m : Machine I S J} {i : I} {shard : Fin Host.numShards}
      {shards : List (Fin Host.numShards)} {env : Lua.CurrentRequestEnv (Sessions (Value S J)) S}
      (h : m.clients i = .script (.locking (shard :: shards)) env) (hfree : m.locks shard = none) :
      Step m (.lockScript i) ((m.set i (.script (.locking shards) { env with
        sessions := env.sessions.insert shard (Lua.lockWriteLua (m.db.shards shard)) })).setLock shard (some i))
  | call {m : Machine I S J} {i : I} {env : Lua.CurrentRequestEnv (Sessions (Value S J)) S} {rt : Runtime}
      {c : Lua.Call} (h : m.clients i = .script (.locking []) env) :
      Step m (.call i c) (m.set i (.script (.locking []) (Lua.redisCall ⟨rt, m.now⟩ env c).2))
  | succeed {m : Machine I S J} {i : I} {env : Lua.CurrentRequestEnv (Sessions (Value S J)) S}
      {shards : List (Fin Host.numShards)} (h : m.clients i = .script (.locking []) env)
      (hs : ∀ shard, shard ∈ shards ↔ shard ∈ env.sessions) :
      Step m (.succeed i) { m.set i (.script (.committing shards) env) with
        aof := m.aof ++ (Lua.multiGroup m.now env.luaAofBuffer).toList }
  | fail {m : Machine I S J} {i : I} {env : Lua.CurrentRequestEnv (Sessions (Value S J)) S}
      (h : m.clients i = .script (.locking []) env) :
      Step m (.fail i) (m.set i (.script (.committing []) env))
  | commit {m : Machine I S J} {i : I} {shard : Fin Host.numShards} {shards : List (Fin Host.numShards)}
      {env : Lua.CurrentRequestEnv (Sessions (Value S J)) S} {node : LuaCacheNode (Value S J)}
      {drained : List (Str × ChangeOp (Value S J))}
      (h : m.clients i = .script (.committing (shard :: shards)) env)
      (hn : env.sessions.lookup shard = some node) (hd : Drains node.differMap drained) :
      Step m (.commit i) (m.set i (.script (.committing shards) { env with
        sessions := env.sessions.insert shard (node.commit drained) }))
  | release {m : Machine I S J} {i : I} {shard : Fin Host.numShards}
      {env : Lua.CurrentRequestEnv (Sessions (Value S J)) S} {node : LuaCacheNode (Value S J)}
      (h : m.clients i = .script (.committing []) env) (hn : env.sessions.lookup shard = some node) :
      Step m (.release i shard) ({ m.set i (.script (.committing []) { env with
          sessions := env.sessions.erase shard }) with
        db := {
          shards := Function.update m.db.shards shard node.dbStore.guard.shard
          globalMemory := m.db.globalMemory + node.dbStore.guard.globalMemory } }.setLock shard none)
  | endScript {m : Machine I S J} {i : I} {env : Lua.CurrentRequestEnv (Sessions (Value S J)) S}
      (h : m.clients i = .script (.committing []) env) (hs : env.sessions = ∅) :
      Step m (.endScript i) (m.set i .idle)

end Machines

end RustKv.Clients
