import RustKv.Connection
import RustKv.ReplyTexts
import RustKv.Transactions

namespace RustKv.Replies

open Text Protocol Domain CommandParser ReplyDecoder CacheStore Zset RustKv.Types Executor RustKv.Normal Expiry

section Executors

variable {S J : Type}

/-- The frame a client gets. -/
def replyFrame : Except KvError Frame → Frame
  | .ok frame => frame
  | .error e => .error (utf8 e.text)

theorem plain_error {e : KvError} (h : NoCr e.text) : Plain (replyFrame (.error e)) := h.oneLine

theorem plain_err {text : String} (h : NoCr text) : Plain (replyFrame (Done.err (S := S) text).reply) :=
  plain_error (noCr_protocolError h)

theorem noCr_wrongType : NoCr wrongTypeText := noCr_ofList (by decide)

theorem plain_wrongType : Plain wrongType := noCr_wrongType.oneLine

theorem plain_okFrame : Plain okFrame := oneLine_of_not_mem (by decide)

theorem plain_bulks (items : List Bytes) : Plain (.array (items.map .bulk)) := by
  apply (plainAll_iff _).mpr
  intro f hf
  obtain ⟨item, -, rfl⟩ := List.mem_map.mp hf
  trivial

theorem plain_stringReply (e : Option (ValueEntry (Value S J))) : Plain (stringReply e) := by
  rcases e with _ | ⟨v, x, n⟩
  · trivial
  · cases v <;> trivial

/-- A command on the entry of its key replies in plain frames. -/
def PlainTaken (f : Option (ValueEntry (Value S J)) → Done S × PutBack (Value S J)) : Prop :=
  ∀ e, Plain (replyFrame (f e).1.reply)

variable [Host]

theorem lpush_plain (rt : Runtime) (c : LPushCommand) (values : List Bytes) :
    PlainTaken (S := S) (J := J) (lpushTaken rt c values) := by
  rintro (_ | ⟨v, x, n⟩)
  · trivial
  · cases v with
    | list => trivial
    | simple | hash | zset | json => exact plain_wrongType

theorem lpop_plain (c : LPopCommand) : PlainTaken (S := S) (J := J) (lpopTaken c) := by
  rintro (_ | ⟨v, x, n⟩)
  · trivial
  · cases v with
    | list deque => cases deque <;> trivial
    | simple | hash | zset | json => exact plain_wrongType

theorem blpop_plain (c : BLPopCommand) : PlainTaken (S := S) (J := J) (blpopTaken c) := by
  rintro (_ | ⟨v, x, n⟩)
  · trivial
  · cases v with
    | list deque =>
        cases deque with
        | nil => trivial
        | cons item list => exact plain_bulks [c.key.bytes, item.reply]
    | simple | hash | zset | json => exact plain_wrongType

theorem hset_plain (rt : Runtime) (c : HSetCommand) : PlainTaken (S := S) (J := J) (hsetTaken rt c) := by
  rintro (_ | ⟨v, x, n⟩)
  · trivial
  · cases v with
    | hash => trivial
    | simple | list | zset | json => exact plain_wrongType

theorem hdel_plain (c : HDelCommand) : PlainTaken (S := S) (J := J) (hdelTaken c) := by
  rintro (_ | ⟨v, x, n⟩)
  · trivial
  · cases v with
    | hash => trivial
    | simple | list | zset | json => exact plain_wrongType

theorem zadd_plain [F64 S] (rt : Runtime) (c : ZAddCommand S) : PlainTaken (J := J) (zaddTaken rt c) := by
  rintro (_ | ⟨v, x, n⟩)
  · trivial
  · cases v with
    | zset => trivial
    | simple | list | hash | json => exact plain_err noCr_wrongType

theorem zrem_plain [F64 S] (c : ZRemCommand) : PlainTaken (S := S) (J := J) (zremTaken c) := by
  rintro (_ | ⟨v, x, n⟩)
  · trivial
  · cases v with
    | zset z =>
        simp only [zremTaken]
        rcases z.delete c.member with ⟨_ | _, z'⟩ <;> trivial
    | simple | list | hash | json => exact plain_err noCr_wrongType

theorem jsonSet_plain [SerdeJson J] (c : JsonSetCommand) (v : J) :
    PlainTaken (S := S) (jsonSetTaken c v) := by
  rintro (_ | ⟨w, x, n⟩)
  · simp only [jsonSetTaken]
    split
    · exact plain_okFrame
    · exact plain_err (noCr_ofList (by decide))
  · cases w with
    | json root size =>
        simp only [jsonSetTaken]
        split
        · exact plain_okFrame
        · split
          · exact plain_okFrame
          · exact plain_err (noCr_ofList (by decide))
    | simple | list | hash | zset => exact plain_err noCr_wrongType

omit [Host] in
theorem zsetRead_plain {found : ZSet S → Frame} {absent : Frame} (hf : ∀ z, Plain (found z))
    (ha : Plain absent) (now : Nat) (e : Option (ValueEntry (Value S J))) :
    Plain (replyFrame ((zsetRead found absent : Access S _).onCell now e).1.reply) := by
  simp only [zsetRead, Access.onCell]
  rcases unlessExpired now e with _ | ⟨v, x, n⟩
  · exact ha
  · cases v with
    | zset z => exact hf z
    | simple | list | hash | json => exact plain_error (noCr_protocolError noCr_wrongType)

theorem set_plain (at' now : Nat) (c : SetCommand) (e : Option (ValueEntry (Value S J))) :
    Plain (replyFrame ((setAccess (S := S) at' c).onCell now e).1.reply) := by
  cases hc : c.condition with
  | none =>
      rw [setAccess, hc]
      exact plain_okFrame
  | some condition =>
      rw [setAccess, hc]
      simp only [Access.onCell]
      cases condition <;> cases (unlessExpired now e).isSome <;> first | trivial | exact plain_okFrame

theorem lpushAccess_plain (rt : Runtime) (c : LPushCommand) (values : List Bytes) (now : Nat)
    (e : Option (ValueEntry (Value S J))) :
    Plain (replyFrame ((lpushAccess (S := S) rt c values).onCell now e).1.reply) := by
  rw [lpushAccess]
  split
  · simp only [Access.onCell]
    rcases unlessExpired now e with _ | ⟨v, x, n⟩
    · trivial
    · cases v <;> trivial
  · exact lpush_plain rt c values e

omit [Host] in
theorem hget_plain (c : HGetCommand) (now : Nat) (e : Option (ValueEntry (Value S J))) :
    Plain (replyFrame ((hgetAccess (S := S) c).onCell now e).1.reply) := by
  simp only [hgetAccess, Access.onCell]
  rcases unlessExpired now e with _ | ⟨v, x, n⟩
  · trivial
  · cases v with
    | hash map =>
        simp only
        cases map.lookup c.field <;> trivial
    | simple | list | zset | json => exact plain_wrongType

omit [Host] in
theorem jsonGet_plain [SerdeJson J] (c : JsonGetCommand) (now : Nat)
    (e : Option (ValueEntry (Value S J))) :
    Plain (replyFrame ((jsonGetAccess (S := S) c).onCell now e).1.reply) := by
  simp only [jsonGetAccess, Access.onCell]
  rcases unlessExpired now e with _ | ⟨v, x, n⟩
  · trivial
  · cases v with
    | json root size =>
        simp only
        split
        · trivial
        · split <;> trivial
    | simple | list | hash | zset => exact plain_error (noCr_protocolError noCr_wrongType)

theorem keyed_plain [F64 S] [SerdeJson J] {rt : Runtime} {at' : Nat} {values : LPushCommand → List Bytes}
    {c : Command S} {key : Str} {a : Access S (Value S J)} (hk : keyed rt at' values c = some (key, a))
    (now : Nat) (e : Option (ValueEntry (Value S J))) : Plain (replyFrame (a.onCell now e).1.reply) := by
  cases c with
  | get c =>
      cases hk
      exact plain_stringReply _
  | set c =>
      cases hk
      exact set_plain at' now c e
  | lpush c =>
      cases hk
      exact lpushAccess_plain rt c (values c) now e
  | lpop c =>
      cases hk
      exact lpop_plain c e
  | blpop c =>
      cases hk
      exact blpop_plain c e
  | hset c =>
      cases hk
      exact hset_plain rt c e
  | hget c =>
      cases hk
      exact hget_plain c now e
  | hdel c =>
      cases hk
      exact hdel_plain c e
  | jsonSet c =>
      obtain ⟨v, hv, hp⟩ := Option.map_eq_some_iff.mp hk
      cases hp
      exact jsonSet_plain c v e
  | jsonGet c =>
      cases hk
      exact jsonGet_plain c now e
  | zadd c =>
      cases hk
      exact zadd_plain rt c e
  | zscore c =>
      cases hk
      apply zsetRead_plain
      · intro z
        split <;> trivial
      · trivial
  | zrank c =>
      cases hk
      apply zsetRead_plain
      · intro z
        split <;> trivial
      · trivial
  | zrange c =>
      cases hk
      apply zsetRead_plain
      · intro z
        have hbulks := plain_bulks ((z.range c.start c.stop).map (fun p => p.1))
        rw [List.map_map] at hbulks
        exact hbulks
      · trivial
  | zrem c =>
      cases hk
      exact zrem_plain c e
  | mset | mget | ping | unimplement | eval | multi | exec | multiGroup => cases hk

variable [F64 S] [SerdeJson J]

theorem execute_plain (rt : Runtime) (now : Nat) (db : Db (Value S J)) (c : Command S)
    (hu : ∀ u, c ≠ .unimplement u) : Plain (replyFrame (execute rt now db c).1.reply) := by
  cases hk : keyed (J := J) rt now (fun c => c.values) c with
  | some p =>
      obtain ⟨key, a⟩ := p
      have hrun : execute rt now db c = db.access now key a := execute_keyed hk db
      rw [hrun, (db.access_spec now key a).1]
      exact keyed_plain hk now (db.entry key)
  | none =>
      cases c with
      | mset c =>
          rw [(db.execute_entry rt now (.mset c)).1, execute_mset]
          exact plain_okFrame
      | mget c =>
          rw [(db.execute_entry rt now (.mget c)).1]
          change Plain (replyFrame ((mgetAll (S := S) now db.entry c.keys).1.map Frame.array))
          rw [mgetAll_reply]
          apply (plainAll_iff _).mpr
          intro f hf
          obtain ⟨k, -, rfl⟩ := List.mem_map.mp hf
          exact plain_stringReply _
      | jsonSet c =>
          have hv : SerdeJson.fromStr (J := J) c.value = none := Option.map_eq_none_iff.mp hk
          simp only [execute, executeJsonSet, hv]
          exact plain_err (noCr_ofList (by decide))
      | ping c =>
          simp only [execute, executePing]
          split
          · trivial
          · exact oneLine_of_not_mem (by decide)
      | eval c => exact plain_err (noCr_ofList (by decide))
      | multi | exec | multiGroup => trivial
      | unimplement c => exact absurd rfl (hu c)
      | get | set | lpush | lpop | blpop | hset | hget | hdel | jsonGet | zadd | zscore | zrank | zrange
      | zrem => cases hk

theorem answer_plain (rt : Runtime) (now : Nat) (queues : Queues) (db : Db (Value S J)) (c : Command S)
    (hu : ∀ u, c ≠ .unimplement u) : Plain (replyFrame (answer rt now queues db c).1.reply) := by
  cases c with
  | lpush c =>
      have hk : keyed (J := J) rt now (unserved queues) (.lpush c : Command S) =
          some (c.key, lpushAccess rt c (unserved queues c)) := rfl
      rw [answer_keyed hk, (db.access_spec ..).1]
      exact keyed_plain hk now _
  | get | set | ping | unimplement | eval | lpop | blpop | hset | hget | hdel | mset | mget | multi | exec
  | multiGroup | jsonSet | jsonGet | zadd | zscore | zrank | zrange | zrem =>
      exact execute_plain rt now db _ hu

end Executors

section Scripts

/-- A value that a script returns, as the conversion to a frame asks mlua for it: of a
number what it is as an i64, of a table the strings at `ok` and `err` if it has them,
the values at 1, 2, 3 and so on, and the error that ends them, of every other value how
it is printed. -/
inductive LuaValue
  | nil
  | string (s : Bytes)
  | integer (i : Int)
  | number (n : Int)
  | boolean (b : Bool)
  | table (ok err : Option Str) (sequence : List LuaValue) (failure : Option String)
  | other (debug : String)

def conversionError (debug : String) : String :=
  "runtime error: Lua result type " ++ debug ++ " cannot be converted to Redis Frame"

mutual

def fromLua : LuaValue → Except String Frame
  | .nil => .ok .null
  | .string s => .ok (.bulk s)
  | .integer i => .ok (.integer i)
  | .number n => .ok (.integer n)
  | .boolean b => if b then .ok (.integer 1) else .ok .null
  | .table (some okMsg) _ _ _ => .ok (.simple okMsg.bytes)
  | .table none (some errMsg) _ _ => .ok (.error errMsg.bytes)
  | .table none none sequence failure => do
      let frames ← fromLuaAll sequence
      match failure with
      | some e => .error e
      | none => .ok (.array frames)
  | .other debug => .error (conversionError debug)

def fromLuaAll : List LuaValue → Except String (List Frame)
  | [] => .ok []
  | v :: vs => do
      let frame ← fromLua v
      let frames ← fromLuaAll vs
      return frame :: frames

end

/-- What comes of an EVAL: no Lua worker takes it, the worker dies, or the script ends
with a value or with an error of mlua. -/
inductive LuaOutcome
  | refused
  | lost
  | ended (result : Except String LuaValue)

def evalReply : LuaOutcome → Except KvError Frame
  | .refused => .error (.protocolError "Lua Worker 已挂掉")
  | .lost => .error (.protocolError "wtf")
  | .ended (.error e) => .error (Isolation.scriptError e)
  | .ended (.ok v) =>
      match fromLua v with
      | .ok frame => .ok frame
      | .error e => .error (Isolation.scriptError e)

mutual

/-- What keeps a value from becoming a frame. -/
def refusal : LuaValue → Option String
  | .table none none sequence failure => (refusalAll sequence).or failure
  | .other debug => some (conversionError debug)
  | _ => none

def refusalAll : List LuaValue → Option String
  | [] => none
  | v :: vs => (refusal v).or (refusalAll vs)

end

mutual

/-- The texts of the `ok` and `err` tables in a value are lines. -/
def PlainValue : LuaValue → Prop
  | .table (some okMsg) _ _ _ => OneLine okMsg.bytes
  | .table none (some errMsg) _ _ => OneLine errMsg.bytes
  | .table none none sequence _ => PlainValues sequence
  | _ => True

def PlainValues : List LuaValue → Prop
  | [] => True
  | v :: vs => PlainValue v ∧ PlainValues vs

end

/-- What the script hands over fits a reply: the texts of its value, or the error. -/
def LuaOutcome.Plain : LuaOutcome → Prop
  | .refused | .lost => True
  | .ended (.error e) => OneLine (utf8 e)
  | .ended (.ok v) =>
      match refusal v with
      | some e => OneLine (utf8 e)
      | none => PlainValue v

mutual

theorem fromLua_spec : ∀ v : LuaValue,
    (∃ frame, fromLua v = .ok frame ∧ refusal v = none ∧ (Plain frame ↔ PlainValue v)) ∨
      ∃ e, fromLua v = .error e ∧ refusal v = some e
  | .nil | .string _ | .integer _ | .number _ => .inl ⟨_, rfl, rfl, Iff.rfl⟩
  | .boolean b => by cases b <;> exact .inl ⟨_, rfl, rfl, Iff.rfl⟩
  | .table (some _) _ _ _ => .inl ⟨_, rfl, rfl, Iff.rfl⟩
  | .table none (some _) _ _ => .inl ⟨_, rfl, rfl, Iff.rfl⟩
  | .table none none sequence failure => by
      simp only [fromLua, refusal]
      rcases fromLuaAll_spec sequence with ⟨frames, hf, hr, hp⟩ | ⟨e, hf, hr⟩
      · rw [hf, hr]
        cases failure with
        | some e => exact .inr ⟨e, rfl, rfl⟩
        | none => exact .inl ⟨_, rfl, rfl, hp⟩
      · rw [hf, hr]
        exact .inr ⟨e, rfl, rfl⟩
  | .other debug => .inr ⟨_, rfl, rfl⟩

theorem fromLuaAll_spec : ∀ vs : List LuaValue,
    (∃ frames, fromLuaAll vs = .ok frames ∧ refusalAll vs = none ∧ (PlainAll frames ↔ PlainValues vs)) ∨
      ∃ e, fromLuaAll vs = .error e ∧ refusalAll vs = some e
  | [] => .inl ⟨[], rfl, rfl, Iff.rfl⟩
  | v :: vs => by
      simp only [fromLuaAll, refusalAll]
      rcases fromLua_spec v with ⟨frame, hf, hr, hp⟩ | ⟨e, hf, hr⟩
      · rw [hf, hr]
        rcases fromLuaAll_spec vs with ⟨frames, hfs, hrs, hps⟩ | ⟨e, hfs, hrs⟩
        · rw [hfs, hrs]
          exact .inl ⟨frame :: frames, rfl, rfl, and_congr hp hps⟩
        · rw [hfs, hrs]
          exact .inr ⟨e, rfl, rfl⟩
      · rw [hf, hr]
        exact .inr ⟨e, rfl, rfl⟩

end

theorem scriptError_iff (text : String) :
    Plain (replyFrame (.error (Isolation.scriptError text))) ↔ OneLine (utf8 text) := by
  have hkind : NoCr "协议解析错误: " := noCr_ofList (by decide)
  have hscript : NoCr "Lua脚本错误: " := noCr_ofList (by decide)
  change OneLine (utf8 ("协议解析错误: " ++ ("Lua脚本错误: " ++ text))) ↔ _
  rw [utf8_append, utf8_append, oneLine_append hkind.not_mem, oneLine_append hscript.not_mem]

theorem evalReply_iff (lua : LuaOutcome) : Plain (replyFrame (evalReply lua)) ↔ lua.Plain := by
  cases lua with
  | refused | lost => exact iff_of_true (plain_error (noCr_protocolError (noCr_ofList (by decide)))) trivial
  | ended result =>
      cases result with
      | error e => exact scriptError_iff e
      | ok v =>
          rcases fromLua_spec v with ⟨frame, hf, hr, hp⟩ | ⟨e, hf, hr⟩
          · simp only [evalReply, LuaOutcome.Plain, hf, hr]
            exact hp
          · simp only [evalReply, LuaOutcome.Plain, hf, hr]
            exact scriptError_iff e

end Scripts

section Requests

variable {S J : Type} [Host]

/-- A request the frame parser has accepted, with all that its reply depends on: the
state it finds, what a BLPOP that waits is handed before its time is up, and what comes
of its script. -/
structure Request (S J : Type) [Host] where
  frame : Frame
  rt : Runtime
  now : Nat
  queues : Queues
  db : Db (Value S J)
  handed : Option Bytes
  lua : LuaOutcome

variable [F64 S] [SerdeJson J]

def Request.execute (r : Request S J) : Command S → Except KvError Frame
  | .eval _ => evalReply r.lua
  | .blpop c =>
      let done := (answer r.rt r.now r.queues r.db (.blpop c : Command S)).1
      if done.waits then
        match r.handed with
        | some bytes => .ok (.array [.bulk c.key.bytes, .bulk bytes])
        | none => .ok .null
      else done.reply
  | c => (answer r.rt r.now r.queues r.db c).1.reply

def Request.result (r : Request S J) : Except KvError Frame := do
  let command ← tryFrom (S := S) r.frame
  r.execute command

/-- The bytes that go to the client. -/
def Request.written (r : Request S J) : Bytes :=
  match r.result with
  | .ok frame => serialize frame
  | .error e => Connection.errorReply e

/-- An unknown command has a name that is a line, and a script ends in lines. -/
def Request.Plain (r : Request S J) : Prop :=
  match tryFrom (S := S) r.frame with
  | .ok (.unimplement c) => OneLine c.command.bytes
  | .ok (.eval _) => r.lua.Plain
  | _ => True

omit [Host] [F64 S] [SerdeJson J] in
theorem unimplement_iff (c : UnimplementCommand) :
    ReplyDecoder.Plain (executeUnimplement c) ↔ OneLine c.command.bytes := by
  have hfront : NoCr "ERR unknown command '" := noCr_ofList (by decide)
  have hlast : ascii ['\''] = [39] := by decide
  change OneLine (utf8 "ERR unknown command '" ++ c.command.bytes ++ ascii ['\'']) ↔ _
  rw [hlast, oneLine_concat (by decide), oneLine_append hfront.not_mem]

theorem Request.execute_iff (r : Request S J) (c : Command S) :
    ReplyDecoder.Plain (replyFrame (r.execute c)) ↔
      match c with
      | .unimplement c => OneLine c.command.bytes
      | .eval _ => r.lua.Plain
      | _ => True := by
  cases c with
  | unimplement c => exact unimplement_iff c
  | eval c => exact evalReply_iff r.lua
  | blpop c =>
      refine iff_of_true ?_ trivial
      simp only [Request.execute]
      split
      · split
        · exact plain_bulks [_, _]
        · trivial
      · exact answer_plain _ _ _ _ _ (by rintro u ⟨⟩)
  | get | set | ping | lpush | lpop | hset | hget | hdel | mset | mget | multi | exec | multiGroup | jsonSet
  | jsonGet | zadd | zscore | zrank | zrange | zrem =>
      exact iff_of_true (answer_plain _ _ _ _ _ (by rintro u ⟨⟩)) trivial

theorem Request.plain_iff (r : Request S J) : ReplyDecoder.Plain (replyFrame r.result) ↔ r.Plain := by
  unfold Request.result Request.Plain
  have hclean := tryFrom_clean (S := S) r.frame
  cases hc : tryFrom (S := S) r.frame with
  | error e => exact iff_of_true (plain_error (hclean e hc)) trivial
  | ok c =>
      refine (r.execute_iff c).trans ?_
      cases c <;> rfl

theorem Request.written_eq (r : Request S J) : r.written = serialize (replyFrame r.result) := by
  unfold Request.written
  cases r.result <;> rfl

/-- A RESP2 decoder recovers the replies of any requests one for one from what the server
has written, exactly when no unknown command has a line break in its name and no script
ends with one in a status, an error table or an error. -/
theorem replies_decoded_iff (requests : List (Request S J)) :
    decode (requests.flatMap Request.written) = some (requests.map (fun r => replyFrame r.result)) ↔
      ∀ r ∈ requests, r.Plain := by
  have hstream : requests.flatMap Request.written =
      serializeAll (requests.map (fun r => replyFrame r.result)) := by
    rw [serializeAll_eq_flatMap, List.flatMap_map]
    exact congrArg (fun f => requests.flatMap f) (funext Request.written_eq)
  rw [hstream, decode_serializeAll_iff, List.forall_mem_map]
  exact forall₂_congr (fun r _ => r.plain_iff)

end Requests

section Sample

attribute [local instance] singleShard wholeScore flatJson

theorem ascii_broken : ∀ b ∈ ascii ['X', '\r', '\n', '+', 'O', 'K'], b < 0x80 := by decide

def brokenName : Str := Str.ofAscii (ascii ['X', '\r', '\n', '+', 'O', 'K']) ascii_broken

/-- A request with the command X\r\n+OK. -/
def brokenRequest : Request UInt64 Str where
  frame := .array [.bulk brokenName.bytes]
  rt := sampleRuntime
  now := 0
  queues := ∅
  db := emptyDb
  handed := none
  lua := .refused

theorem brokenRequest_command :
    tryFrom (S := UInt64) brokenRequest.frame = .ok (.unimplement ⟨brokenName, []⟩) := by
  simp only [brokenRequest, tryFrom, fromUtf8_bytes]
  rfl

/-- The client gets the first half of the message and a status of its own making. -/
theorem name_breaks_reply :
    decode (List.flatMap Request.written [brokenRequest]) ≠ some [replyFrame brokenRequest.result] := by
  have hstream : List.flatMap Request.written [brokenRequest] =
      serializeAll [replyFrame brokenRequest.result] := by
    rw [serializeAll_eq_flatMap, List.flatMap_singleton, List.flatMap_singleton, Request.written_eq]
  rw [hstream, Ne, decode_serializeAll_iff, List.forall_mem_singleton, Request.plain_iff, Request.Plain,
    brokenRequest_command]
  decide

end Sample

end RustKv.Replies
