import Mathlib.Data.Multiset.Sort
import RustKv.ListHash
import RustKv.Scripts
import RustKv.ZSetMap

namespace RustKv.Abstract

open Text Decimal Protocol Domain Zset RustKv.Types Executor ListHash Lua

variable {S J : Type}

/-- What a key holds for its clients: a text, a sequence, a map from fields to texts, a
map from members to scores, or a document. -/
inductive Datum (S J : Type)
  | text (bytes : Bytes)
  | list (items : List Bytes)
  | hash (fields : Finmap (fun _ : Str => Bytes))
  | sorted (scores : Scores S)
  | json (root : J)

structure Item (S J : Type) where
  datum : Datum S J
  deadline : Option Nat

/-- A database for its clients: no shards, no locks, no policy and no sizes. -/
abbrev Keyspace (S J : Type) := Str → Option (Item S J)

def Item.isOver (time : Nat) (x : Item S J) : Bool :=
  match x.deadline with
  | some deadline => decide (time > deadline)
  | none => false

def live (time : Nat) (x : Option (Item S J)) : Option (Item S J) := x.filter (fun i => !i.isOver time)

/-- Where a command runs: how a text that is a number reads, the keys it is refused, the
time that deadlines are held against and the clock that new deadlines count from. -/
structure Setting where
  readNumber : Bytes → Option Int
  refuses : Str → Option KvError
  time : Nat
  now : Nat

/-- What a command gives back and what it leaves at its key. -/
abbrev Answer (S J : Type) := Done S × Option (Item S J)

section Texts

/-- A text as it is kept: a number is spelled anew. -/
def Setting.text (env : Setting) (value : Bytes) : Datum S J :=
  .text (match env.readNumber value with
    | some i => decimalInt i
    | none => value)

def setItem (env : Setting) (c : SetCommand) : Item S J :=
  ⟨env.text c.value, c.expiration.map (calculateExpirationTimestampMs env.now)⟩

def set (env : Setting) (c : SetCommand) (x : Option (Item S J)) : Answer S J :=
  match c.condition, live env.time x with
  | some .nx, some found => (.ok .null, some found)
  | some .xx, none => (.ok .null, none)
  | _, _ => (.logged okFrame (.set c), some (setItem env c))

def textReply : Option (Item S J) → Frame
  | some ⟨.text bytes, _⟩ => .bulk bytes
  | _ => .null

def get (env : Setting) (x : Option (Item S J)) : Answer S J := (.ok (textReply (live env.time x)), x)

def msetItem (env : Setting) (value : Bytes) : Item S J := ⟨env.text value, none⟩

end Texts

section Lists

def lengthReply : Option (Item S J) → Frame
  | some ⟨.list items, _⟩ => .integer items.length
  | _ => .integer 0

/-- `values` are those that no waiting client has taken. -/
def lpush (env : Setting) (c : LPushCommand) (values : List Bytes) (x : Option (Item S J)) : Answer S J :=
  if values = [] then (.ok (lengthReply (live env.time x)), live env.time x)
  else
    match x with
    | none => (.logged (.integer values.length) (.lpush c), some ⟨.list values.reverse, none⟩)
    | some ⟨.list items, deadline⟩ =>
        (.logged (.integer (values.length + items.length)) (.lpush c),
          some ⟨.list (values.reverse ++ items), deadline⟩)
    | some x => (.ok wrongType, some x)

def remaining (items : List Bytes) (deadline : Option Nat) : Option (Item S J) :=
  if items = [] then none else some ⟨.list items, deadline⟩

def lpop (c : LPopCommand) : Option (Item S J) → Answer S J
  | some ⟨.list (item :: items), deadline⟩ => (.logged (.bulk item) (.lpop c), remaining items deadline)
  | some ⟨.list [], _⟩ => (.ok .null, none)
  | some x => (.ok wrongType, some x)
  | none => (.ok .null, none)

def blpop (c : BLPopCommand) : Option (Item S J) → Answer S J
  | some ⟨.list (item :: items), deadline⟩ =>
      (.logged (.array [.bulk c.key.bytes, .bulk item]) (.lpop ⟨c.key⟩), remaining items deadline)
  | some ⟨.list [], deadline⟩ => (.ok .null, some ⟨.list [], deadline⟩)
  | some x => (.ok wrongType, some x)
  | none => (⟨.ok .null, none, true⟩, none)

end Lists

section Hashes

def hset (c : HSetCommand) : Option (Item S J) → Answer S J
  | none => (.logged (.integer (newFields ∅ (c.fieldValues.map Prod.fst))) (.hset c),
      some ⟨.hash (setFields ∅ c.fieldValues), none⟩)
  | some ⟨.hash fields, deadline⟩ =>
      (.logged (.integer (newFields fields (c.fieldValues.map Prod.fst))) (.hset c),
        some ⟨.hash (setFields fields c.fieldValues), deadline⟩)
  | some x => (.ok wrongType, some x)

def fieldReply (field : Str) : Option (Item S J) → Frame
  | some ⟨.hash fields, _⟩ =>
      match fields.lookup field with
      | some value => .bulk value
      | none => .null
  | some _ => wrongType
  | none => .null

def hget (env : Setting) (c : HGetCommand) (x : Option (Item S J)) : Answer S J :=
  (.ok (fieldReply c.field (live env.time x)), x)

def hdel (c : HDelCommand) : Option (Item S J) → Answer S J
  | none => (.ok (.integer 0), none)
  | some ⟨.hash fields, deadline⟩ =>
      (.logged (.integer (oldFields fields c.fields)) (.hdel c),
        if (eraseFields fields c.fields).keys = ∅ then none
        else some ⟨.hash (eraseFields fields c.fields), deadline⟩)
  | some x => (.ok wrongType, some x)

end Hashes

section SortedSets

/-- The members with their scores, the smallest score first and among equal scores the
smallest member. -/
def listing [LinearOrder S] (m : Scores S) : List (S × Bytes) :=
  ((m.entries.map (fun e => toLex (e.2, e.1))).sort (· ≤ ·)).map (fun e => ofLex e)

/-- The elements between two indices; an end before the first element counts as the first. -/
def slice {α : Type} (start stop : Int) (l : List α) : List α :=
  (l.drop (normIndex l.length start).toNat).take
    ((normIndex l.length stop).toNat + 1 - (normIndex l.length start).toNat)

def zadd (c : ZAddCommand S) : Option (Item S J) → Answer S J
  | none => (.logged (.integer 1) (.zadd c), some ⟨.sorted (Finmap.insert c.member c.score ∅), none⟩)
  | some ⟨.sorted m, deadline⟩ =>
      (.logged (.integer (if c.member ∈ m then 0 else 1)) (.zadd c),
        some ⟨.sorted (m.insert c.member c.score), deadline⟩)
  | some x => (.err wrongTypeText, some x)

def zrem (c : ZRemCommand) : Option (Item S J) → Answer S J
  | none => (.ok (.integer 0), none)
  | some ⟨.sorted m, deadline⟩ =>
      if c.member ∈ m then
        (.logged (.integer 1) (.zrem c),
          if (m.erase c.member).keys = ∅ then none else some ⟨.sorted (m.erase c.member), deadline⟩)
      else (.ok (.integer 0), some ⟨.sorted m, deadline⟩)
  | some x => (.err wrongTypeText, some x)

def scoresReply (found : Scores S → Frame) (absent : Frame) : Option (Item S J) → Except KvError Frame
  | some ⟨.sorted m, _⟩ => .ok (found m)
  | some _ => .error (.protocolError wrongTypeText)
  | none => .ok absent

def zread (env : Setting) (found : Scores S → Frame) (absent : Frame) (x : Option (Item S J)) :
    Answer S J :=
  (⟨scoresReply found absent (live env.time x), none, false⟩, x)

def zscore [F64 S] (env : Setting) (c : ZScoreCommand) : Option (Item S J) → Answer S J :=
  zread env (fun m =>
    match m.lookup c.member with
    | some score => .bulk (F64.display score).bytes
    | none => .null) .null

variable [LinearOrder S]

/-- The rank is the number of members before it. -/
def zrank (env : Setting) (c : ZRankCommand) : Option (Item S J) → Answer S J :=
  zread env (fun m =>
    match m.lookup c.member with
    | some score => .integer (m.smaller (score, c.member)).card
    | none => .null) .null

def zrange (env : Setting) (c : ZRangeCommand) : Option (Item S J) → Answer S J :=
  zread env (fun m => .array ((slice c.start c.stop (listing m)).map (fun e => .bulk e.2))) (.array [])

end SortedSets

section Documents

variable [SerdeJson J]

def jsonSet (c : JsonSetCommand) (v : J) : Option (Item S J) → Answer S J
  | none =>
      if isRoot c.path then (.logged okFrame (.jsonSet c), some ⟨.json v, none⟩)
      else (.err "could not set path in non-existent key", none)
  | some ⟨.json root, deadline⟩ =>
      if isRoot c.path then (.logged okFrame (.jsonSet c), some ⟨.json v, deadline⟩)
      else
        match SerdeJson.assign root c.path v with
        | some root => (.logged okFrame (.jsonSet c), some ⟨.json root, deadline⟩)
        | none => (.err "Path does not exist", some ⟨.json root, deadline⟩)
  | some x => (.err wrongTypeText, some x)

def documentReply (c : JsonGetCommand) : Option (Item S J) → Except KvError Frame
  | some ⟨.json root, _⟩ =>
      if isRoot c.path then .ok (.bulk (jsonText root))
      else
        match SerdeJson.pointer root c.path with
        | some target => .ok (.bulk (jsonText target))
        | none => .ok .null
  | some _ => .error (.protocolError wrongTypeText)
  | none => .ok .null

def jsonGet (env : Setting) (c : JsonGetCommand) (x : Option (Item S J)) : Answer S J :=
  (⟨documentReply c (live env.time x), none, false⟩, x)

end Documents

section Commands

variable [LinearOrder S] [F64 S] [SerdeJson J]

def served (env : Setting) (values : LPushCommand → List Bytes) :
    Command S → Option (Str × (Option (Item S J) → Answer S J))
  | .get c => some (c.key, get env)
  | .set c => some (c.key, set env c)
  | .lpush c => some (c.key, lpush env c (values c))
  | .lpop c => some (c.key, lpop c)
  | .blpop c => some (c.key, blpop c)
  | .hset c => some (c.key, hset c)
  | .hget c => some (c.key, hget env c)
  | .hdel c => some (c.key, hdel c)
  | .jsonSet c => (SerdeJson.fromStr c.value).map (fun v => (c.key, jsonSet c v))
  | .jsonGet c => some (c.key, jsonGet env c)
  | .zadd c => some (c.key, zadd c)
  | .zscore c => some (c.key, zscore env c)
  | .zrank c => some (c.key, zrank env c)
  | .zrange c => some (c.key, zrange env c)
  | .zrem c => some (c.key, zrem c)
  | _ => none

def Keyspace.onKey (m : Keyspace S J) (env : Setting) (key : Str) (f : Option (Item S J) → Answer S J) :
    Done S × Keyspace S J :=
  match env.refuses key with
  | some e => (⟨.error e, none, false⟩, m)
  | none => ((f (m key)).1, Function.update m key (f (m key)).2)

/-- Writes the texts until a key is refused. -/
def Keyspace.msetAll (m : Keyspace S J) (env : Setting) : List (Str × Bytes) → Except KvError Unit × Keyspace S J
  | [] => (.ok (), m)
  | (key, value) :: pairs =>
      match env.refuses key with
      | some e => (.error e, m)
      | none => Keyspace.msetAll (Function.update m key (some (msetItem env value))) env pairs

/-- The texts of the keys, unless one of them is refused. -/
def Keyspace.mgetAll (m : Keyspace S J) (env : Setting) : List Str → Except KvError (List Frame)
  | [] => .ok []
  | key :: keys =>
      match env.refuses key with
      | some e => .error e
      | none => (Keyspace.mgetAll m env keys).map (textReply (live env.time (m key)) :: ·)

def Keyspace.execute (m : Keyspace S J) (env : Setting) (values : LPushCommand → List Bytes) (c : Command S) :
    Done S × Keyspace S J :=
  match served env values c with
  | some (key, f) => m.onKey env key f
  | none =>
      match c with
      | .mset c =>
          match m.msetAll env (sortedPairs c) with
          | (.ok (), m) => (.logged okFrame (.mset c), m)
          | (.error e, m) => (⟨.error e, none, false⟩, m)
      | .mget c => (⟨(m.mgetAll env c.keys).map .array, none, false⟩, m)
      | .ping c => (.ok (executePing c), m)
      | .unimplement c => (.ok (executeUnimplement c), m)
      | .jsonSet _ => (.err "Invalid JSON value", m)
      | .eval _ => (.err "Eval can only run in a normal client context", m)
      | _ => (.ok .null, m)

variable [Host]

/-- A call of a script: its result, the calls that succeeded so far, and the keys after it. -/
def Keyspace.redisCall (m : Keyspace S J) (env : Setting) (logged : List (Command S)) (c : Call) :
    Except LuaError Frame × List (Command S) × Keyspace S J :=
  match CommandParser.tryFrom (.array (c.args.map .bulk)) with
  | .error _ => (.error .conversion, logged, m)
  | .ok command =>
      match m.execute env LPushCommand.values command with
      | (⟨.ok frame, _, _⟩, m) => (.ok frame, logged ++ [command], m)
      | (⟨.error e, _, _⟩, m) => (.error (.command e), logged, m)

/-- A script as the calls it makes one after the other. -/
def Keyspace.runScript (m : Keyspace S J) (env : Setting) (script : Script) (logged : List (Command S)) :
    Except String Frame × List (Command S) × Keyspace S J :=
  match script with
  | .ret frame => (.ok frame, logged, m)
  | .fail text => (.error text, logged, m)
  | .call c next =>
      let (result, logged, m) := m.redisCall env logged c
      Keyspace.runScript m env (next result) logged

end Commands

end RustKv.Abstract
