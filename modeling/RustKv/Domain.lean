import RustKv.Protocol

namespace RustKv.Domain

open Text Decimal Protocol

/-- The comparisons of f64 that ordering by score uses, NaN included. -/
class Score (S : Type) where
  less : S → S → Bool
  equal : S → S → Bool
  zero : S

/-- The f64 operations the program takes from its platform. NaN is one value
here; printing and reading a score gives the score back. -/
class F64 (S : Type) extends Score S where
  parse : Str → Option S
  display : S → Str
  parse_display : ∀ s, parse (display s) = some s
  display_length : ∀ s, (display s).bytes.length < 2 ^ 63

/-- What else the program takes from its platform and its configuration. -/
class Host where
  toUppercase : Str → Str
  toUppercase_ascii : ∀ s : Str, (∀ b ∈ s.bytes, b < 0x80) →
    (toUppercase s).bytes = s.bytes.map upperByte
  lexicalParse : Bytes → Option Int
  numShards : Nat
  shardIndex : Str → Fin numShards
  sizeOfValueEntry : Nat
  sizeOfElement : Nat
  sizeOfString : Nat
  sizeOfBytes : Nat
  sizeOfSkipNode : Nat

inductive Expiration
  | ex (seconds : Nat)
  | px (millis : Nat)
  | exat (seconds : Nat)
  | pxat (millis : Nat)
  deriving DecidableEq, Repr

inductive SetCondition
  | nx
  | xx
  deriving DecidableEq, Repr

structure SetCommand where
  key : Str
  value : Bytes
  expiration : Option Expiration
  condition : Option SetCondition

structure MSetCommand where
  keysAndValues : List (Str × Bytes)

structure MGetCommand where
  keys : List Str

structure GetCommand where
  key : Str

structure HSetCommand where
  key : Str
  fieldValues : List (Str × Bytes)

structure HGetCommand where
  key : Str
  field : Str

structure HDelCommand where
  key : Str
  fields : List Str

structure PingCommand where
  value : Option Str

structure UnimplementCommand where
  command : Str
  args : List Bytes

structure EvalCommand where
  script : Str
  keys : List Str
  args : List Str

structure LPushCommand where
  key : Str
  values : List Bytes

structure LPopCommand where
  key : Str

structure BLPopCommand where
  key : Str
  timeout : Nat

structure JsonSetCommand where
  key : Str
  path : Str
  value : Str

structure JsonGetCommand where
  key : Str
  path : Str

structure ZAddCommand (S : Type) where
  key : Str
  score : S
  member : Bytes

structure ZScoreCommand where
  key : Str
  member : Bytes

structure ZRankCommand where
  key : Str
  member : Bytes

structure ZRangeCommand where
  key : Str
  start : Int
  stop : Int

structure ZRemCommand where
  key : Str
  member : Bytes

inductive Command (S : Type)
  | set (c : SetCommand)
  | get (c : GetCommand)
  | ping (c : PingCommand)
  | unimplement (c : UnimplementCommand)
  | eval (c : EvalCommand)
  | lpush (c : LPushCommand)
  | lpop (c : LPopCommand)
  | blpop (c : BLPopCommand)
  | hset (c : HSetCommand)
  | hget (c : HGetCommand)
  | hdel (c : HDelCommand)
  | mset (c : MSetCommand)
  | mget (c : MGetCommand)
  | multi
  | exec
  | multiGroup (cmds : List (Command S))
  | jsonSet (c : JsonSetCommand)
  | jsonGet (c : JsonGetCommand)
  | zadd (c : ZAddCommand S)
  | zscore (c : ZScoreCommand)
  | zrank (c : ZRankCommand)
  | zrange (c : ZRangeCommand)
  | zrem (c : ZRemCommand)

end RustKv.Domain
