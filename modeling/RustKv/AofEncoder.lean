import RustKv.RequestReading

namespace RustKv.AofEncoder

open Text Decimal Protocol Domain RequestReading

variable {S : Type} [F64 S]

def u64 (n : Nat) : Nat := n % 2 ^ 64

/-- The clock and the u64 arithmetic of a release build. -/
def exchangeAbsoluteTime (now expireTime : Nat) : Bytes := decimal (u64 (now + expireTime))

def expirationFrames (now : Nat) : Expiration → List Frame
  | .ex s => [.bulk (ascii ['E', 'X', 'A', 'T']), .bulk (exchangeAbsoluteTime now (u64 (s * 1000)))]
  | .px ms => [.bulk (ascii ['P', 'X', 'A', 'T']), .bulk (exchangeAbsoluteTime now ms)]
  | .exat s => [.bulk (ascii ['E', 'X', 'A', 'T']), .bulk (decimal s)]
  | .pxat ms => [.bulk (ascii ['P', 'X', 'A', 'T']), .bulk (decimal ms)]

def encodeSet (now : Nat) (c : SetCommand) : Bytes :=
  serialize (.array ([.bulk (ascii ['S', 'E', 'T']), .bulk c.key.bytes, .bulk c.value] ++
    match c.expiration with
    | none => []
    | some e => expirationFrames now e))

def encodeMSet (c : MSetCommand) : Bytes :=
  serialize (.array (.bulk (ascii ['M', 'S', 'E', 'T']) :: pairFrames c.keysAndValues))

def encodeLPush (c : LPushCommand) : Bytes :=
  serialize (.array ([.bulk (ascii ['L', 'P', 'U', 'S', 'H']), .bulk c.key.bytes] ++
    c.values.map .bulk))

def encodeLPop (c : LPopCommand) : Bytes :=
  serialize (.array [.bulk (ascii ['L', 'P', 'O', 'P']), .bulk c.key.bytes])

/-- The two hash encoders write their bytes by hand. -/
def encodeHSet (c : HSetCommand) : Bytes :=
  header star (2 + c.fieldValues.length * 2) ++ ascii ['$', '4'] ++ crlf ++
    ascii ['H', 'S', 'E', 'T'] ++ crlf ++
    header dollar c.key.len ++ c.key.bytes ++ crlf ++
    c.fieldValues.flatMap (fun p =>
      header dollar p.1.len ++ p.1.bytes ++ crlf ++ (header dollar p.2.length ++ p.2 ++ crlf))

def encodeHDel (c : HDelCommand) : Bytes :=
  header star (2 + c.fields.length) ++ ascii ['$', '4'] ++ crlf ++
    ascii ['H', 'D', 'E', 'L'] ++ crlf ++
    header dollar c.key.len ++ c.key.bytes ++ crlf ++
    c.fields.flatMap (fun f => header dollar f.len ++ f.bytes ++ crlf)

def encodeJsonSet (c : JsonSetCommand) : Bytes :=
  serialize (.array [.bulk (ascii ['J', 'S', 'O', 'N', '.', 'S', 'E', 'T']), .bulk c.key.bytes,
    .bulk c.path.bytes, .bulk c.value.bytes])

def encodeZAdd (c : ZAddCommand S) : Bytes :=
  serialize (.array [.bulk (ascii ['Z', 'A', 'D', 'D']), .bulk c.key.bytes,
    .bulk (F64.display c.score).bytes, .bulk c.member])

def encodeZRem (c : ZRemCommand) : Bytes :=
  serialize (.array [.bulk (ascii ['Z', 'R', 'E', 'M']), .bulk c.key.bytes, .bulk c.member])

def multiFrame : Frame := .array [.bulk (ascii ['M', 'U', 'L', 'T', 'I'])]

def execFrame : Frame := .array [.bulk (ascii ['E', 'X', 'E', 'C'])]

/-- What the group encoder writes for one of its commands; the variants it does
not name leave no bytes. -/
def encodeInGroup (now : Nat) : Command S → Bytes
  | .set c => encodeSet now c
  | .lpush c => encodeLPush c
  | .lpop c => encodeLPop c
  | .hset c => encodeHSet c
  | .hdel c => encodeHDel c
  | .mset c => encodeMSet c
  | .jsonSet c => encodeJsonSet c
  | .zadd c => encodeZAdd c
  | .zrem c => encodeZRem c
  | _ => []

/-- The message a command puts on the AOF channel, if it puts one. -/
def encodeAofCommand (now : Nat) : Command S → Option Bytes
  | .set c => some (encodeSet now c)
  | .lpush c => some (encodeLPush c)
  | .lpop c => some (encodeLPop c)
  | .blpop _ => none
  | .hset c => some (encodeHSet c)
  | .hdel c => some (encodeHDel c)
  | .jsonSet c => some (encodeJsonSet c)
  | .zadd c => some (encodeZAdd c)
  | .zrem c => some (encodeZRem c)
  | .get _ | .hget _ | .jsonGet _ | .zscore _ | .zrank _ | .zrange _ | .ping _ | .unimplement _
  | .mget _ | .eval _ => none
  | .multi => some (serialize multiFrame)
  | .exec => some (serialize execFrame)
  | .multiGroup cmds =>
      some (serialize multiFrame ++ cmds.flatMap (encodeInGroup now) ++ serialize execFrame)
  | .mset c => some (encodeMSet c)

end RustKv.AofEncoder
