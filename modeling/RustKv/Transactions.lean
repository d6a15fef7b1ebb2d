import RustKv.ExpiredKeys
import RustKv.RwLocks

namespace RustKv.Isolation

open Text Protocol Domain CacheStore Zset RustKv.Types Executor Expiry Lua RwLocks

variable {I S J : Type} [Host]

inductive Request (S : Type)
  | command (c : Command S)
  | eval (keys : List Str) (script : Script)

/-- A request that has been answered, with the moments at which it read the clock and
drew its random levels: a command when it started and when it had its lock, a script
at each of its calls. -/
structure Served (S : Type) where
  request : Request S
  moments : List Moment
  reply : Except KvError Frame

/-- A client: between requests, in a command before it has its lock, with it, and when
the command is done, or in a script that locks its shards, that makes its calls, or
that commits the shards it has left and drops its locks. -/
inductive Client (S J : Type)
  | idle
  | waiting (c : Command S) (started : Moment) (key : Str) (a : Access S (Value S J))
  | locked (c : Command S) (started : Moment) (key : Str) (a : Access S (Value S J))
  | done (served : Served S) (guard : Option (Str × Mode))
  | locking (keys : List Str) (script : Script) (shards : List (Fin Host.numShards))
      (sessions : Sessions (Value S J))
  | calling (keys : List Str) (start : Script) (moments : List Moment) (script : Script)
      (env : CurrentRequestEnv (Sessions (Value S J)) S)
  | ending (served : Served S) (shards : List (Fin Host.numShards)) (sessions : Sessions (Value S J))

def lockMode (a : Access S (Value S J)) : Mode := if a.reads then .read else .write

def Client.held : Client S J → Fin Host.numShards → Option Mode
  | .locked _ _ key a, shard => if shard = Host.shardIndex key then some (lockMode a) else none
  | .done _ (some (key, mode)), shard => if shard = Host.shardIndex key then some mode else none
  | .locking _ _ _ sessions, shard | .ending _ _ sessions, shard =>
      if (sessions.lookup shard).isSome then some .write else none
  | .calling _ _ _ _ env, shard => if (env.sessions.lookup shard).isSome then some .write else none
  | _, _ => none

/-- The commands on one key that this is about. -/
def single : Command S → Bool
  | .get _ | .set _ | .hset _ | .hget _ | .hdel _ | .lpop _ | .zadd _ | .zrem _ | .zscore _ | .jsonSet _
  | .jsonGet _ => true
  | _ => false

/-- The server as its clients share it: the data, the clock, where each client is, and
the requests it has answered. The lock of a shard is held by the clients that have a
guard of it. -/
structure Machine (I S J : Type) [Host] where
  db : Db (Value S J)
  now : Nat
  clients : I → Client S J
  replies : List (I × Served S)

def Machine.held (m : Machine I S J) (i : I) (shard : Fin Host.numShards) : Option Mode :=
  (m.clients i).held shard

inductive Label (I S : Type)
  | start (i : I) (request : Request S)
  | go (i : I)
  | tick (now : Nat)

def scriptError (text : String) : KvError := .protocolError ("Lua脚本错误: " ++ text)

section Steps

variable [DecidableEq I] [F64 S] [SerdeJson J]

def Machine.set (m : Machine I S J) (i : I) (x : Client S J) : Machine I S J :=
  { m with clients := Function.update m.clients i x }

def Machine.reply (m : Machine I S J) (i : I) (served : Served S) : Machine I S J :=
  { m.set i .idle with replies := m.replies ++ [(i, served)] }

inductive Step : Machine I S J → Label I S → Machine I S J → Prop
  | start {m : Machine I S J} {i : I} {c : Command S} {rt : Runtime} {key : Str}
      {a : Access S (Value S J)} (h : m.clients i = .idle) (hc : single c = true)
      (ha : keyed rt m.now (fun c => c.values) c = some (key, a)) :
      Step m (.start i (.command c)) (m.set i (.waiting c ⟨rt, m.now⟩ key a))
  | refuse {m : Machine I S J} {i : I} {c : Command S} {rt : Runtime} (h : m.clients i = .idle)
      (hc : single c = true) (ha : keyed (J := J) rt m.now (fun c => c.values) c = none) :
      Step m (.start i (.command c)) { m.set i (.done ⟨.command c, [⟨rt, m.now⟩],
          (execute rt m.now m.db c).1.reply⟩ none) with db := (execute rt m.now m.db c).2 }
  | lock {m : Machine I S J} {i : I} {c : Command S} {started : Moment} {key : Str}
      {a : Access S (Value S J)} (h : m.clients i = .waiting c started key a)
      (hfree : Free m.held (lockMode a) (Host.shardIndex key)) :
      Step m (.go i) (m.set i (.locked c started key a))
  | access {m : Machine I S J} {i : I} {c : Command S} {started : Moment} {key : Str}
      {a : Access S (Value S J)} (h : m.clients i = .locked c started key a) :
      Step m (.go i) { m.set i (.done ⟨.command c, [started, ⟨started.rt, m.now⟩],
          (m.db.access m.now key a).1.reply⟩ (some (key, lockMode a))) with db := (m.db.access m.now key a).2 }
  | unlock {m : Machine I S J} {i : I} {served : Served S} {guard : Option (Str × Mode)}
      (h : m.clients i = .done served guard) : Step m (.go i) (m.reply i served)
  | eval {m : Machine I S J} {i : I} {keys : List Str} {script : Script} (h : m.clients i = .idle) :
      Step m (.start i (.eval keys script)) (m.set i (.locking keys script (shardIndices keys) ∅))
  | lockShard {m : Machine I S J} {i : I} {keys : List Str} {script : Script} {shard : Fin Host.numShards}
      {shards : List (Fin Host.numShards)} {sessions : Sessions (Value S J)}
      (h : m.clients i = .locking keys script (shard :: shards) sessions) (hfree : Free m.held .write shard) :
      Step m (.go i) (m.set i (.locking keys script shards
        (sessions.insert shard (lockWriteLua (m.db.shards shard)))))
  | run {m : Machine I S J} {i : I} {keys : List Str} {script : Script} {sessions : Sessions (Value S J)}
      (h : m.clients i = .locking keys script [] sessions) :
      Step m (.go i) (m.set i (.calling keys script [] script ⟨sessions, []⟩))
  | call {m : Machine I S J} {i : I} {keys : List Str} {start : Script} {moments : List Moment}
      {c : Call} {next : Except LuaError Frame → Script}
      {env : CurrentRequestEnv (Sessions (Value S J)) S} (rt : Runtime)
      (h : m.clients i = .calling keys start moments (.call c next) env) :
      Step m (.go i) (m.set i (.calling keys start (moments ++ [⟨rt, m.now⟩])
        (next (redisCall ⟨rt, m.now⟩ env c).1) (redisCall ⟨rt, m.now⟩ env c).2))
  | succeed {m : Machine I S J} {i : I} {keys : List Str} {start : Script} {moments : List Moment}
      {frame : Frame} {env : CurrentRequestEnv (Sessions (Value S J)) S} {shards : List (Fin Host.numShards)}
      (h : m.clients i = .calling keys start moments (.ret frame) env) (hn : shards.Nodup)
      (hs : ∀ shard, shard ∈ shards ↔ shard ∈ env.sessions) :
      Step m (.go i) (m.set i (.ending ⟨.eval keys start, moments, .ok frame⟩ shards env.sessions))
  | fail {m : Machine I S J} {i : I} {keys : List Str} {start : Script} {moments : List Moment}
      {text : String} {env : CurrentRequestEnv (Sessions (Value S J)) S}
      (h : m.clients i = .calling keys start moments (.fail text) env) :
      Step m (.go i) (m.set i (.ending ⟨.eval keys start, moments, .error (scriptError text)⟩ [] env.sessions))
  | commit {m : Machine I S J} {i : I} {served : Served S} {shard : Fin Host.numShards}
      {shards : List (Fin Host.numShards)} {sessions : Sessions (Value S J)} {node : LuaCacheNode (Value S J)}
      {drained : List (Str × ChangeOp (Value S J))} (h : m.clients i = .ending served (shard :: shards) sessions)
      (hn : sessions.lookup shard = some node) (hd : Drains node.differMap drained) :
      Step m (.go i) (m.set i (.ending served shards (sessions.insert shard (node.commit drained))))
  | release {m : Machine I S J} {i : I} {served : Served S} {sessions : Sessions (Value S J)}
      {node : LuaCacheNode (Value S J)} (shard : Fin Host.numShards)
      (h : m.clients i = .ending served [] sessions) (hn : sessions.lookup shard = some node) :
      Step m (.go i) { m.set i (.ending served [] (sessions.erase shard)) with
        db := {
          shards := Function.update m.db.shards shard node.dbStore.guard.shard
          globalMemory := m.db.globalMemory + node.dbStore.guard.globalMemory } }
  | finish {m : Machine I S J} {i : I} {served : Served S} {sessions : Sessions (Value S J)}
      (h : m.clients i = .ending served [] sessions) (hs : sessions = ∅) : Step m (.go i) (m.reply i served)
  | tick {m : Machine I S J} {now : Nat} : Step m (.tick now) { m with now := now }

def Script.calls {γ : Type} [Context γ (Value S J)] (moments : Nat → Moment) :
    Nat → Script → CurrentRequestEnv γ S → Nat
  | _, .ret _, _ => 0
  | _, .fail _, _ => 0
  | n, .call c next, env =>
      Script.calls moments (n + 1) (next (redisCall (moments n) env c).1) (redisCall (moments n) env c).2 + 1

/-- A request that runs with nobody else on the server and is answered: a command, or a
script that returns a value. -/
inductive Alone : Db (Value S J) → Served S → Db (Value S J) → Prop
  | command {db : Db (Value S J)} {c : Command S} {rt : Runtime} {started now : Nat} {key : Str}
      {a : Access S (Value S J)} (ha : keyed rt started (fun c => c.values) c = some (key, a)) :
      Alone db ⟨.command c, [⟨rt, started⟩, ⟨rt, now⟩], (db.access now key a).1.reply⟩ (db.access now key a).2
  | refuse {db : Db (Value S J)} {c : Command S} {rt : Runtime} {started : Nat}
      (ha : keyed (J := J) rt started (fun c => c.values) c = none) :
      Alone db ⟨.command c, [⟨rt, started⟩], (execute rt started db c).1.reply⟩ (execute rt started db c).2
  | script {db : Db (Value S J)} {keys : List Str} {script : Script} {moments : Nat → Moment}
      {frame : Frame} {env : CurrentRequestEnv (Sessions (Value S J)) S}
      {drained : Fin Host.numShards → List (Str × ChangeOp (Value S J))}
      (hrun : script.run moments 0 (initLuaPre db keys) = (.ok frame, env))
      (hd : ∀ i node, env.sessions.lookup i = some node → Drains node.differMap (drained i)) :
      Alone db ⟨.eval keys script,
          (List.range (Script.calls moments 0 script (initLuaPre db keys))).map moments, .ok frame⟩
        (release db (committed env.sessions drained))

inductive Serial (db : Db (Value S J)) : List (I × Served S) → Db (Value S J) → Prop
  | nil : Serial db [] db
  | snoc {history : List (I × Served S)} {db₁ db₂ : Db (Value S J)} {i : I} {served : Served S}
      (h : Serial db history db₁) (hs : Alone db₁ served db₂) : Serial db (history ++ [(i, served)]) db₂

end Steps

/-- A script that ends in an error is no part of a serial execution. -/
def Served.kept (served : Served S) : Bool :=
  match served.request, served.reply with
  | .eval _ _, .error _ => false
  | _, _ => true

end RustKv.Isolation
