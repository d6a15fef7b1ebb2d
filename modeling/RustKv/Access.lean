import RustKv.Values

namespace RustKv.Executor

open Text Decimal Protocol Domain CacheStore Zset RustKv.Types

variable {S J D σ : Type}

/-- What a command gives back: its reply, the command it hands to send_aof, and
whether it goes on to wait in the blocking queue of its key. -/
structure Done (S : Type) where
  reply : Except KvError Frame
  aof : Option (Command S)
  waits : Bool

def Done.ok (frame : Frame) : Done S := ⟨.ok frame, none, false⟩

def Done.err (text : String) : Done S := ⟨.error (.protocolError text), none, false⟩

def Done.logged (frame : Frame) (cmd : Command S) : Done S := ⟨.ok frame, some cmd, false⟩

/-- The last operation on the entry of the key. -/
inductive PutBack (D : Type)
  | nothing
  | insert (value : ValueEntry D)
  | delete

def PutBack.run [KvOperator σ D] (now : Nat) (key : Str) (map : σ) : PutBack D → σ
  | .nothing => map
  | .insert value => KvOperator.insert map now key value
  | .delete => KvOperator.delete map now key

/-- What a command does with the entry of its key while it holds the lock of the
shard: a write lock in the first three cases, a read lock in the last. -/
inductive Access (S D : Type)
  | take (f : Option (ValueEntry D) → Done S × PutBack D)
  | select (f : Option (ValueEntry D) → Done S × PutBack D)
  | insert (value : ValueEntry D) (done : Done S)
  | read (f : Option (ValueEntry D) → Except KvError Frame)

def Access.run [KvOperator σ D] (now : Nat) (key : Str) (map : σ) : Access S D → Done S × σ
  | .take f =>
      let (entry, map) := KvOperator.take map now key
      let (done, put) := f entry
      (done, put.run now key map)
  | .select f =>
      let (entry, map) := KvOperator.select map now key
      let (done, put) := f entry
      (done, put.run now key map)
  | .insert value done => (done, KvOperator.insert map now key value)
  | .read f =>
      let (entry, map) := KvOperator.select map now key
      (⟨f entry, none, false⟩, map)

def Access.reads : Access S D → Bool
  | .read _ => true
  | _ => false

def wrongTypeText : String := "WRONGTYPE Operation against a key holding the wrong kind of value"

def wrongType : Frame := .error (utf8 wrongTypeText)

def okFrame : Frame := .simple (ascii ['O', 'K'])

def calculateExpirationTimestampMs (now : Nat) : Expiration → Nat
  | .px ms => (now + ms) % 2 ^ 64
  | .ex s => (now + s * 1000) % 2 ^ 64
  | .exat s => min (s * 1000) (2 ^ 64 - 1)
  | .pxat ms => ms

section Strings

variable [Host]

def setEntry (now : Nat) (c : SetCommand) : ValueEntry (Value S J) :=
  newEntry (simpleValue c.value) (c.expiration.map (calculateExpirationTimestampMs now))

def setAccess (now : Nat) (c : SetCommand) : Access S (Value S J) :=
  match c.condition with
  | some condition => .select (fun entry =>
      match condition, entry.isSome with
      | .nx, true => (.ok .null, .nothing)
      | .xx, false => (.ok .null, .nothing)
      | _, _ => (.logged okFrame (.set c), .insert (setEntry now c)))
  | none => .insert (setEntry now c) (.logged okFrame (.set c))

def stringReply (entry : Option (ValueEntry (Value S J))) : Frame :=
  match entry with
  | some entry =>
      match entry.data with
      | .simple el => .bulk el.reply
      | _ => .null
  | none => .null

def getAccess : Access S (Value S J) := .read (fun entry => .ok (stringReply entry))

def msetEntry (value : Bytes) : ValueEntry (Value S J) := newEntry (simpleValue value) none

end Strings

section Lists

variable [Host]

def pushAll (list : List Element) (elementsHeap : UInt64) : List Bytes → List Element × UInt64
  | [] => (list, elementsHeap)
  | item :: items =>
      let el := Element.string item
      pushAll (el :: list) (elementsHeap + el.heapSize) items

def lpushOnto (rt : Runtime) (c : LPushCommand) (valuesToPush : List Bytes) (deque : List Element)
    (size : UInt64) (expiresAt : Option Nat) : Done S × PutBack (Value S J) :=
  let (list, elementsHeap) := pushAll deque size valuesToPush
  (.logged (.integer list.length) (.lpush c),
    .insert (newEntry (.list list rt.capacity elementsHeap) expiresAt))

def lpushTaken (rt : Runtime) (c : LPushCommand) (valuesToPush : List Bytes)
    (entry : Option (ValueEntry (Value S J))) : Done S × PutBack (Value S J) :=
  match entry with
  | some entry =>
      match entry.data with
      | .list deque _ size => lpushOnto rt c valuesToPush deque size entry.expiresAt
      | _ => (.ok wrongType, .insert entry)
  | none => lpushOnto rt c valuesToPush [] 0 none

def currentLength (entry : Option (ValueEntry (Value S J))) : Frame :=
  match entry with
  | some entry =>
      match entry.data with
      | .list deque _ _ => .integer deque.length
      | _ => .integer 0
  | none => .integer 0

def lpushAccess (rt : Runtime) (c : LPushCommand) (valuesToPush : List Bytes) :
    Access S (Value S J) :=
  if valuesToPush = [] then .select (fun entry => (.ok (currentLength entry), .nothing))
  else .take (lpushTaken rt c valuesToPush)

/-- What is left of a list when its first item has been popped. -/
def popRest (list : List Element) (capacity elementsHeap : UInt64) (expiresAt : Option Nat) :
    PutBack (Value S J) :=
  if list = [] then .delete else .insert (newEntry (.list list capacity elementsHeap) expiresAt)

def lpopTaken (c : LPopCommand) (entry : Option (ValueEntry (Value S J))) :
    Done S × PutBack (Value S J) :=
  match entry with
  | some entry =>
      match entry.data with
      | .list (item :: list) capacity elementsHeap =>
          (.logged (.bulk item.reply) (.lpop c),
            popRest list capacity (elementsHeap - item.heapSize) entry.expiresAt)
      | .list [] _ _ => (.ok .null, .nothing)
      | _ => (.ok wrongType, .insert entry)
  | none => (.ok .null, .nothing)

def blpopTaken (c : BLPopCommand) (entry : Option (ValueEntry (Value S J))) :
    Done S × PutBack (Value S J) :=
  match entry with
  | some entry =>
      match entry.data with
      | .list (item :: list) capacity elementsHeap =>
          (.logged (.array [.bulk c.key.bytes, .bulk item.reply]) (.lpop ⟨c.key⟩),
            popRest list capacity (elementsHeap - item.heapSize) entry.expiresAt)
      | .list [] capacity elementsHeap =>
          (.ok .null, .insert (newEntry (.list [] capacity elementsHeap) entry.expiresAt))
      | _ => (.ok wrongType, .insert entry)
  | none => (⟨.ok .null, none, true⟩, .nothing)

end Lists

section Hashes

variable [Host]

abbrev HashMap := Finmap (fun _ : Str => Element)

def hsetAll (map : HashMap) (elementsHeap : UInt64) (addedCount : Nat) :
    List (Str × Bytes) → HashMap × UInt64 × Nat
  | [] => (map, elementsHeap, addedCount)
  | (field, value) :: rest =>
      let el := Element.string value
      match map.lookup field with
      | some oldVal => hsetAll (map.insert field el)
          (elementsHeap - oldVal.heapSize + UInt64.ofNat value.length) addedCount rest
      | none => hsetAll (map.insert field el)
          (elementsHeap + (UInt64.ofNat field.len + el.heapSize)) (addedCount + 1) rest

def hsetOnto (rt : Runtime) (c : HSetCommand) (map : HashMap) (size : UInt64)
    (expiresAt : Option Nat) : Done S × PutBack (Value S J) :=
  let (map, elementsHeap, addedCount) := hsetAll map size 0 c.fieldValues
  (.logged (.integer addedCount) (.hset c),
    .insert (newEntry (.hash map rt.capacity elementsHeap) expiresAt))

def hsetTaken (rt : Runtime) (c : HSetCommand) (entry : Option (ValueEntry (Value S J))) :
    Done S × PutBack (Value S J) :=
  match entry with
  | some entry =>
      match entry.data with
      | .hash map _ size => hsetOnto rt c map size entry.expiresAt
      | _ => (.ok wrongType, .insert entry)
  | none => hsetOnto rt c ∅ 0 none

def hgetAccess (c : HGetCommand) : Access S (Value S J) :=
  .read (fun entry =>
    match entry with
    | some entry =>
        match entry.data with
        | .hash map _ _ =>
            match map.lookup c.field with
            | some el => .ok (.bulk el.reply)
            | none => .ok .null
        | _ => .ok wrongType
    | none => .ok .null)

def hdelAll (map : HashMap) (elementsHeap : UInt64) (removedCount : Nat) :
    List Str → HashMap × UInt64 × Nat
  | [] => (map, elementsHeap, removedCount)
  | field :: rest =>
      match map.lookup field with
      | some oldVal => hdelAll (map.erase field)
          (elementsHeap - (UInt64.ofNat field.len + oldVal.heapSize)) (removedCount + 1) rest
      | none => hdelAll map elementsHeap removedCount rest

def hdelTaken (c : HDelCommand) (entry : Option (ValueEntry (Value S J))) :
    Done S × PutBack (Value S J) :=
  match entry with
  | some entry =>
      match entry.data with
      | .hash map capacity size =>
          let (map, elementsHeap, removedCount) := hdelAll map size 0 c.fields
          (.logged (.integer removedCount) (.hdel c),
            if map.keys = ∅ then .delete
            else .insert (newEntry (.hash map capacity elementsHeap) entry.expiresAt))
      | _ => (.ok wrongType, .insert entry)
  | none => (.ok (.integer 0), .nothing)

end Hashes

section SortedSets

variable [Host] [F64 S]

def zsetEntry (zset : ZSet S) (expiresAt : Option Nat) : ValueEntry (Value S J) :=
  newEntry (.zset zset zset.heapMemorySize) expiresAt

def zaddTaken (rt : Runtime) (c : ZAddCommand S) (entry : Option (ValueEntry (Value S J))) :
    Done S × PutBack (Value S J) :=
  match entry with
  | some entry =>
      match entry.data with
      | .zset zset _ =>
          let (isNew, zset) := zset.insert rt c.score c.member
          (.logged (.integer (if isNew then 1 else 0)) (.zadd c),
            .insert (zsetEntry zset entry.expiresAt))
      | _ => (.err wrongTypeText, .insert entry)
  | none =>
      (.logged (.integer 1) (.zadd c),
        .insert (zsetEntry (ZSet.new.insert rt c.score c.member).2 none))

/-- The lookups of the sorted set commands: `found` answers for a sorted set,
`absent` for a key without an entry. -/
def zsetRead (found : ZSet S → Frame) (absent : Frame) : Access S (Value S J) :=
  .read (fun entry =>
    match entry with
    | some entry =>
        match entry.data with
        | .zset zset _ => .ok (found zset)
        | _ => .error (.protocolError wrongTypeText)
    | none => .ok absent)

def zscoreAccess (c : ZScoreCommand) : Access S (Value S J) :=
  zsetRead (fun zset =>
    match zset.score c.member with
    | some score => .bulk (F64.display score).bytes
    | none => .null) .null

def zrankAccess (c : ZRankCommand) : Access S (Value S J) :=
  zsetRead (fun zset =>
    match zset.rank c.member with
    | some rank => .integer (asIsize rank)
    | none => .null) .null

def zrangeAccess (c : ZRangeCommand) : Access S (Value S J) :=
  zsetRead (fun zset => .array ((zset.range c.start c.stop).map (fun p => .bulk p.1))) (.array [])

def zremTaken (c : ZRemCommand) (entry : Option (ValueEntry (Value S J))) :
    Done S × PutBack (Value S J) :=
  match entry with
  | some entry =>
      match entry.data with
      | .zset zset _ =>
          match zset.delete c.member with
          | (true, zset) =>
              (.logged (.integer 1) (.zrem c),
                if zset.len = 0 then .nothing else .insert (zsetEntry zset entry.expiresAt))
          | (false, zset) => (.ok (.integer 0), .insert (zsetEntry zset entry.expiresAt))
      | _ => (.err wrongTypeText, .insert entry)
  | none => (.ok (.integer 0), .nothing)

end SortedSets

section Json

variable [Host] [SerdeJson J]

def isRoot (path : Str) : Bool := path.bytes == ascii ['/'] || path.bytes == []

def jsonSize (root : J) : UInt64 :=
  match SerdeJson.toStr root with
  | some s => UInt64.ofNat s.len
  | none => 0

/-- The entry keeps its expiration and its size when its document changes. -/
def jsonUpdate (c : JsonSetCommand) (entry : ValueEntry (Value S J)) (root : J) :
    Done S × PutBack (Value S J) :=
  (.logged okFrame (.jsonSet c), .insert { entry with data := .json root (jsonSize root) })

def jsonSetTaken (c : JsonSetCommand) (newJsonVal : J) (entry : Option (ValueEntry (Value S J))) :
    Done S × PutBack (Value S J) :=
  match entry with
  | some entry =>
      match entry.data with
      | .json root _ =>
          if isRoot c.path then jsonUpdate c entry newJsonVal
          else
            match SerdeJson.assign root c.path newJsonVal with
            | some root => jsonUpdate c entry root
            | none => (.err "Path does not exist", .insert { entry with data := .json root 0 })
      | _ => (.err wrongTypeText, .insert entry)
  | none =>
      if isRoot c.path then
        (.logged okFrame (.jsonSet c), .insert (newEntry (.json newJsonVal (jsonSize newJsonVal)) none))
      else (.err "could not set path in non-existent key", .nothing)

def jsonText (root : J) : Bytes :=
  match SerdeJson.toStr root with
  | some s => s.bytes
  | none => ascii ['n', 'u', 'l', 'l']

def jsonGetAccess (c : JsonGetCommand) : Access S (Value S J) :=
  .read (fun entry =>
    match entry with
    | some entry =>
        match entry.data with
        | .json root _ =>
            if isRoot c.path then .ok (.bulk (jsonText root))
            else
              match SerdeJson.pointer root c.path with
              | some target => .ok (.bulk (jsonText target))
              | none => .ok .null
        | _ => .error (.protocolError wrongTypeText)
    | none => .ok .null)

end Json

end RustKv.Executor
