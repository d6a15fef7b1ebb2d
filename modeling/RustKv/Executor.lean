import RustKv.Access

namespace RustKv.Executor

open Text Decimal Protocol Domain CacheStore Zset RustKv.Types

variable {S J D γ : Type} [Host]

/-- The selected database; no command selects another one. -/
structure Db (D : Type) where
  shards : Fin Host.numShards → Shard D
  globalMemory : UInt64

def Db.new (configType : Eviction.EvictionType) : Db D where
  shards _ := Shard.new configType
  globalMemory := 0

def Db.lock (db : Db D) (i : Fin Host.numShards) : Guard D := ⟨db.shards i, db.globalMemory⟩

def Db.unlock (db : Db D) (i : Fin Host.numShards) (guard : Guard D) : Db D where
  shards := Function.update db.shards i guard.shard
  globalMemory := guard.globalMemory

def Db.access (db : Db D) (now : Nat) (key : Str) (a : Access S D) : Done S × Db D :=
  let i := Host.shardIndex key
  let node := if a.reads then DirectCacheNode.readguard (db.lock i) else .writeguard (db.lock i)
  let (done, node) := a.run now key node
  (done, db.unlock i node.guard)

/-- The locked shards of a script. -/
abbrev Sessions (D : Type) := Finmap (fun _ : Fin Host.numShards => LuaCacheNode D)

def undeclared (i : Fin Host.numShards) : KvError :=
  .protocolError ("脚本访问了未在 KEYS 中声明的 key（shard " ++ toString i.val ++ "）")

def Sessions.access (sessions : Sessions D) (now : Nat) (key : Str) (a : Access S D) :
    Done S × Sessions D :=
  let i := Host.shardIndex key
  match sessions.lookup i with
  | some node =>
      let (done, node) := a.run now key node
      (done, sessions.insert i node)
  | none => (⟨.error (undeclared i), none, false⟩, sessions)

/-- A command of a script changes the lock of the shard of its key, and no other. -/
theorem Sessions.access_lookup (sessions : Sessions D) (now : Nat) (key : Str) (a : Access S D)
    (i : Fin Host.numShards) :
    (sessions.access now key a).2.lookup i =
      if i = Host.shardIndex key then (sessions.lookup i).map (fun node => (a.run now key node).2)
      else sessions.lookup i := by
  rw [Sessions.access]
  by_cases hi : i = Host.shardIndex key
  · subst hi
    rw [if_pos rfl]
    cases hl : sessions.lookup (Host.shardIndex key) with
    | none => exact hl
    | some node => exact Finmap.lookup_insert sessions
  · rw [if_neg hi]
    cases sessions.lookup (Host.shardIndex key) with
    | none => rfl
    | some node => exact Finmap.lookup_insert_of_ne sessions hi

/-- Where a command finds the shard of a key. -/
class Context (γ : Type) (D : outParam Type) where
  access : {S : Type} → γ → Nat → Str → Access S D → Done S × γ

instance : Context (Db D) D := ⟨Db.access⟩

instance : Context (Sessions D) D := ⟨Sessions.access⟩

/-- The pairs of an MSET in the order in which they are written. -/
def sortedPairs (c : MSetCommand) : List (Str × Bytes) :=
  c.keysAndValues.mergeSort (fun a b => decide (a.1.bytes ≤ b.1.bytes))

section Execute

variable [F64 S] [SerdeJson J] [Context γ (Value S J)]

/-- Writes the pairs until a key has no locked shard. -/
def msetAll (now : Nat) (ctx : γ) : List (Str × Bytes) → Except KvError Unit × γ
  | [] => (.ok (), ctx)
  | (key, value) :: pairs =>
      match Context.access ctx now key (.insert (msetEntry value) (.ok .null) : Access S _) with
      | (⟨.error e, _, _⟩, ctx) => (.error e, ctx)
      | (⟨.ok _, _, _⟩, ctx) => msetAll now ctx pairs

def executeMSet (now : Nat) (ctx : γ) (c : MSetCommand) : Done S × γ :=
  match msetAll (S := S) now ctx (sortedPairs c) with
  | (.ok (), ctx) => (.logged okFrame (.mset c), ctx)
  | (.error e, ctx) => (⟨.error e, none, false⟩, ctx)

def mgetAll (now : Nat) (ctx : γ) : List Str → Except KvError (List Frame) × γ
  | [] => (.ok [], ctx)
  | key :: keys =>
      match Context.access ctx now key (getAccess : Access S _) with
      | (⟨.error e, _, _⟩, ctx) => (.error e, ctx)
      | (⟨.ok frame, _, _⟩, ctx) =>
          match mgetAll now ctx keys with
          | (.ok frames, ctx) => (.ok (frame :: frames), ctx)
          | (.error e, ctx) => (.error e, ctx)

def executeMGet (now : Nat) (ctx : γ) (c : MGetCommand) : Done S × γ :=
  let (reply, ctx) := mgetAll (S := S) now ctx c.keys
  (⟨reply.map .array, none, false⟩, ctx)

def executeJsonSet (now : Nat) (ctx : γ) (c : JsonSetCommand) : Done S × γ :=
  match SerdeJson.fromStr (J := J) c.value with
  | some newJsonVal => Context.access ctx now c.key (.take (jsonSetTaken c newJsonVal))
  | none => (.err "Invalid JSON value", ctx)

def executePing (c : PingCommand) : Frame :=
  match c.value with
  | some value => .bulk value.bytes
  | none => .simple (ascii ['P', 'O', 'N', 'G'])

def executeUnimplement (c : UnimplementCommand) : Frame :=
  .error (utf8 "ERR unknown command '" ++ c.command.bytes ++ ascii ['\''])

/-- Executing a command in a context that cannot block and runs no scripts. -/
def execute (rt : Runtime) (now : Nat) (ctx : γ) : Command S → Done S × γ
  | .get c => Context.access ctx now c.key getAccess
  | .set c => Context.access ctx now c.key (setAccess now c)
  | .ping c => (.ok (executePing c), ctx)
  | .unimplement c => (.ok (executeUnimplement c), ctx)
  | .eval _ => (.err "Eval can only run in a normal client context", ctx)
  | .lpush c => Context.access ctx now c.key (lpushAccess rt c c.values)
  | .lpop c => Context.access ctx now c.key (.take (lpopTaken c))
  | .blpop c => Context.access ctx now c.key (.take (blpopTaken c))
  | .hset c => Context.access ctx now c.key (.take (hsetTaken rt c))
  | .hget c => Context.access ctx now c.key (hgetAccess c)
  | .hdel c => Context.access ctx now c.key (.take (hdelTaken c))
  | .mset c => executeMSet now ctx c
  | .mget c => executeMGet now ctx c
  | .multi => (.ok .null, ctx)
  | .exec => (.ok .null, ctx)
  | .multiGroup _ => (.ok .null, ctx)
  | .jsonSet c => executeJsonSet now ctx c
  | .jsonGet c => Context.access ctx now c.key (jsonGetAccess c)
  | .zadd c => Context.access ctx now c.key (.take (zaddTaken rt c))
  | .zscore c => Context.access ctx now c.key (zscoreAccess c)
  | .zrank c => Context.access ctx now c.key (zrankAccess c)
  | .zrange c => Context.access ctx now c.key (zrangeAccess c)
  | .zrem c => Context.access ctx now c.key (.take (zremTaken c))

end Execute

end RustKv.Executor
