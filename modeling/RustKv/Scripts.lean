import RustKv.AofEncoder
import RustKv.Executor

namespace RustKv.Lua

open Text Protocol Domain CommandParser CacheStore Zset RustKv.Types Executor AofEncoder

variable {S J D γ : Type} [Host]

/-- The arguments of a redis.call, turned into bulk strings. They are in memory,
so their lengths are machine words. -/
structure Call where
  args : List Bytes
  fits : Fits (.array (args.map .bulk))

inductive LuaError
  | conversion
  | command (e : KvError)

/-- A script as the server sees it: it ends with a value or an error, or it makes
a call and goes on with the result, which may be an error that it has caught. What a
worker's Lua state keeps from one script to the next is an input of the script. -/
inductive Script
  | ret (frame : Frame)
  | fail (text : String)
  | call (c : Call) (next : Except LuaError Frame → Script)

/-- What a call finds when it is made: the random levels and the capacities it
will get, and the cached clock. -/
structure Moment where
  rt : Runtime
  now : Nat

structure CurrentRequestEnv (γ S : Type) where
  sessions : γ
  luaAofBuffer : List (Command S)

section Calls

variable [F64 S] [SerdeJson J] [Context γ (Value S J)]

def redisCall (moment : Moment) (env : CurrentRequestEnv γ S) (c : Call) :
    Except LuaError Frame × CurrentRequestEnv γ S :=
  match tryFrom (.array (c.args.map .bulk)) with
  | .error _ => (.error .conversion, env)
  | .ok command =>
      match execute moment.rt moment.now env.sessions command with
      | (⟨.ok frame, _, _⟩, sessions) => (.ok frame, ⟨sessions, env.luaAofBuffer ++ [command]⟩)
      | (⟨.error e, _, _⟩, sessions) => (.error (.command e), { env with sessions := sessions })

/-- Runs a script to its end; its n-th call is made at `moments n`. -/
def Script.run (moments : Nat → Moment) :
    Nat → Script → CurrentRequestEnv γ S → Except String Frame × CurrentRequestEnv γ S
  | _, .ret frame, env => (.ok frame, env)
  | _, .fail text, env => (.error text, env)
  | n, .call c next, env =>
      let (result, env) := redisCall (moments n) env c
      Script.run moments (n + 1) (next result) env

def Script.Calls (P : CurrentRequestEnv γ S → Moment → Command S → Prop) (moments : Nat → Moment) :
    Nat → Script → CurrentRequestEnv γ S → Prop
  | _, .ret _, _ => True
  | _, .fail _, _ => True
  | n, .call c next, env =>
      (∀ command, tryFrom (.array (c.args.map .bulk)) = .ok command → P env (moments n) command) ∧
        Script.Calls P moments (n + 1) (next (redisCall (moments n) env c).1)
          (redisCall (moments n) env c).2

end Calls

/-- The lock of a shard for a script. Its guard counts the change of GLOBAL_MEMORY
from zero. -/
def lockWriteLua (shard : Shard D) : LuaCacheNode D := .new (.writeguard ⟨shard, 0⟩)

def shardIndices (keys : List Str) : List (Fin Host.numShards) :=
  ((keys.map Host.shardIndex).mergeSort (fun i j => decide (i ≤ j))).dedup

def lockAll (db : Db D) (shards : List (Fin Host.numShards)) : Sessions D :=
  shards.foldl (fun sessions i => sessions.insert i (lockWriteLua (db.shards i))) ∅

def initLuaPre (db : Db D) (keys : List Str) : CurrentRequestEnv (Sessions D) S :=
  ⟨lockAll db (shardIndices keys), []⟩

def release (db : Db D) (guards : Fin Host.numShards → Option (Guard D)) : Db D where
  shards i :=
    match guards i with
    | some guard => guard.shard
    | none => db.shards i
  globalMemory := (List.finRange Host.numShards).foldl (fun memory i =>
    match guards i with
    | some guard => memory + guard.globalMemory
    | none => memory) db.globalMemory

/-- The locks when every shard has been committed; `drained i` is the order in
which draining the changes of shard i gives them. -/
def committed (sessions : Sessions D) (drained : Fin Host.numShards → List (Str × ChangeOp D))
    (i : Fin Host.numShards) : Option (Guard D) :=
  (sessions.lookup i).map (fun node => (node.commit (drained i)).dbStore.guard)

/-- The message with the commands of a script, which goes out before the commit. -/
def multiGroup [F64 S] (now : Nat) (luaAofBuffer : List (Command S)) : Option Bytes :=
  if luaAofBuffer = [] then none else encodeAofCommand now (.multiGroup luaAofBuffer)

end RustKv.Lua
