import RustKv.Domain

namespace RustKv.CommandParser

open Text Decimal Protocol Domain

variable {S : Type} [Host] [F64 S]

def protocolError {α : Type} (text : String) : Except KvError α := .error (.protocolError text)

def extractBulkString : Option Frame → Except KvError Str
  | some (.bulk data) =>
      match fromUtf8 data with
      | .ok s => .ok s
      | .error e => protocolError e.text
  | _ => protocolError "期望参数是批量字符串"

def extractBulkInteger (frame : Option Frame) : Except KvError Int := do
  let s ← extractBulkString frame
  match parseI64 s.bytes with
  | .ok i => .ok i
  | .error e => protocolError e.text

def extractBulkBytes : Option Frame → Except KvError Bytes
  | some (.bulk data) => .ok data
  | _ => protocolError "期望参数是批量字符串"

/-- The four expiration options differ in their name and in the variant they
build. -/
def expirationOption (name : Bytes) : Option (String × (Nat → Expiration)) :=
  if eqIgnoreAsciiCase name (ascii ['P', 'X']) then some ("PX", .px)
  else if eqIgnoreAsciiCase name (ascii ['E', 'X']) then some ("EX", .ex)
  else if eqIgnoreAsciiCase name (ascii ['P', 'X', 'A', 'T']) then some ("PXAT", .pxat)
  else if eqIgnoreAsciiCase name (ascii ['E', 'X', 'A', 'T']) then some ("EXAT", .exat)
  else none

def conditionOption (name : Bytes) : Option SetCondition :=
  if eqIgnoreAsciiCase name (ascii ['N', 'X']) then some .nx
  else if eqIgnoreAsciiCase name (ascii ['X', 'X']) then some .xx
  else none

def parseSetOptions : List Frame → Option Expiration → Option SetCondition →
    Except KvError (Option Expiration × Option SetCondition)
  | [], expiration, condition => .ok (expiration, condition)
  | .bulk name :: itor, expiration, condition =>
      match expirationOption name with
      | some (text, build) =>
          match itor with
          | [] => protocolError (text ++ " 需要一个时间参数")
          | timeFrame :: itor => do
              let time ← extractBulkInteger (some timeFrame)
              if time ≤ 0 then protocolError (text ++ " 过期时间必须大于 0")
              else parseSetOptions itor (some (build time.toNat)) condition
      | none =>
          match conditionOption name with
          | some c =>
              if condition.isSome then protocolError "只能指定 NX 或 XX 中的一个"
              else parseSetOptions itor expiration (some c)
          | none => protocolError "未知的参数"
  | _ :: _, _, _ => protocolError "未知的参数"

def parseSet (itor : List Frame) : Except KvError (Command S) := do
  let key ← extractBulkString itor.head?
  let value ← extractBulkBytes itor.tail.head?
  let (expiration, condition) ← parseSetOptions itor.tail.tail none none
  return .set ⟨key, value, expiration, condition⟩

def parseGet (itor : List Frame) : Except KvError (Command S) := do
  let key ← extractBulkString itor.head?
  return .get ⟨key⟩

/-- The loop ends at the first frame that is not a string, without an error. -/
def parsePairs : List Frame → Except KvError (List (Str × Bytes))
  | [] => .ok []
  | frame :: itor =>
      match extractBulkString (some frame) with
      | .error _ => .ok []
      | .ok key =>
          match itor with
          | [] => protocolError "mset value 缺失"
          | valueFrame :: itor =>
              match extractBulkBytes (some valueFrame) with
              | .error _ => protocolError "mset value 缺失"
              | .ok value => do
                  let pairs ← parsePairs itor
                  return (key, value) :: pairs

def parseMSet (itor : List Frame) : Except KvError (Command S) := do
  let pairs ← parsePairs itor
  if pairs.isEmpty then protocolError "mset 参数错误" else return .mset ⟨pairs⟩

def parseKeys : List Frame → List Str
  | [] => []
  | frame :: itor =>
      match extractBulkString (some frame) with
      | .error _ => []
      | .ok key => key :: parseKeys itor

def parseMGet (itor : List Frame) : Except KvError (Command S) :=
  let keys := parseKeys itor
  if keys.isEmpty then protocolError "mget 参数错误" else .ok (.mget ⟨keys⟩)

def extractAllBytes : List Frame → Except KvError (List Bytes)
  | [] => .ok []
  | frame :: itor => do
      let value ← extractBulkBytes (some frame)
      let values ← extractAllBytes itor
      return value :: values

def extractAllStrings : List Frame → Except KvError (List Str)
  | [] => .ok []
  | frame :: itor => do
      let value ← extractBulkString (some frame)
      let values ← extractAllStrings itor
      return value :: values

def parseLPush (itor : List Frame) : Except KvError (Command S) := do
  let key ← extractBulkString itor.head?
  let values ← extractAllBytes itor.tail
  return .lpush ⟨key, values⟩

def parseLPop (itor : List Frame) : Except KvError (Command S) := do
  let key ← extractBulkString itor.head?
  return .lpop ⟨key⟩

def parseBLPop (itor : List Frame) : Except KvError (Command S) := do
  let key ← extractBulkString itor.head?
  let timeoutStr ← extractBulkString itor.tail.head?
  match parseU64 timeoutStr.bytes with
  | .error _ => protocolError "Invalid timeout"
  | .ok timeout => return .blpop ⟨key, timeout⟩

def parseFieldValues : List Frame → Except KvError (List (Str × Bytes))
  | [] => .ok []
  | [frame] => do
      let _ ← extractBulkString (some frame)
      let _ ← extractBulkBytes none
      return []
  | fieldFrame :: valueFrame :: itor => do
      let field ← extractBulkString (some fieldFrame)
      let value ← extractBulkBytes (some valueFrame)
      let rest ← parseFieldValues itor
      return (field, value) :: rest

def parseHSet (itor : List Frame) : Except KvError (Command S) := do
  let key ← extractBulkString itor.head?
  let fieldValues ← parseFieldValues itor.tail
  return .hset ⟨key, fieldValues⟩

def parseHGet (itor : List Frame) : Except KvError (Command S) := do
  let key ← extractBulkString itor.head?
  let field ← extractBulkString itor.tail.head?
  return .hget ⟨key, field⟩

def parseHDel (itor : List Frame) : Except KvError (Command S) := do
  let key ← extractBulkString itor.head?
  let fields ← extractAllStrings itor.tail
  return .hdel ⟨key, fields⟩

/-- A required argument, with the message for when it is missing. -/
def requiredString (frame : Option Frame) (missing : String) : Except KvError Str :=
  match frame with
  | some f => extractBulkString (some f)
  | none => protocolError missing

def parseJsonSet (iter : List Frame) : Except KvError (Command S) := do
  let key ← requiredString iter.head? "JSON.SET missing key"
  let path ← requiredString iter.tail.head? "JSON.SET missing path"
  let value ← requiredString iter.tail.tail.head? "JSON.SET missing value"
  return .jsonSet ⟨key, path, value⟩

def parseJsonGet (iter : List Frame) : Except KvError (Command S) := do
  let key ← requiredString iter.head? "JSON.GET missing key"
  let path ← requiredString iter.tail.head? "JSON.GET missing path"
  return .jsonGet ⟨key, path⟩

def parseZAdd (iter : List Frame) : Except KvError (Command S) := do
  let key ← requiredString iter.head? "ZADD missing key"
  let scoreStr ← requiredString iter.tail.head? "ZADD missing score"
  match F64.parse scoreStr with
  | none => protocolError "ZADD score is not a valid float"
  | some score =>
      let member ← requiredString iter.tail.tail.head? "ZADD missing member"
      return .zadd ⟨key, score, member.bytes⟩

/-- ZSCORE, ZRANK and ZREM read a key and a member. -/
def parseKeyMember (name : String) (build : Str → Bytes → Command S) (iter : List Frame) :
    Except KvError (Command S) := do
  let key ← requiredString iter.head? (name ++ " missing key")
  let member ← requiredString iter.tail.head? (name ++ " missing member")
  return build key member.bytes

def parseZScore : List Frame → Except KvError (Command S) :=
  parseKeyMember "ZSCORE" (fun key member => .zscore ⟨key, member⟩)

def parseZRank : List Frame → Except KvError (Command S) :=
  parseKeyMember "ZRANK" (fun key member => .zrank ⟨key, member⟩)

def parseZRem : List Frame → Except KvError (Command S) :=
  parseKeyMember "ZREM" (fun key member => .zrem ⟨key, member⟩)

def parseIsize (s : Str) (text : String) : Except KvError Int :=
  match parseI64 s.bytes with
  | .ok i => .ok i
  | .error _ => protocolError text

def parseZRange (iter : List Frame) : Except KvError (Command S) := do
  let key ← requiredString iter.head? "ZRANGE missing key"
  let startStr ← requiredString iter.tail.head? "ZRANGE missing start"
  let start ← parseIsize startStr "ZRANGE start must be integer"
  let stopStr ← requiredString iter.tail.tail.head? "ZRANGE missing stop"
  let stop ← parseIsize stopStr "ZRANGE stop must be integer"
  return .zrange ⟨key, start, stop⟩

def parsePing : List Frame → Except KvError (Command S)
  | [] => .ok (.ping ⟨none⟩)
  | [frame] => do
      let msg ← extractBulkString (some frame)
      return .ping ⟨some msg⟩
  | _ => protocolError "PING 命令最多只能有一个参数"

def bulkArguments : List Frame → Except KvError (List Bytes)
  | [] => .ok []
  | .bulk data :: itor => do
      let args ← bulkArguments itor
      return data :: args
  | _ :: _ => protocolError "命令参数必须是 Bulk String"

def parseUnimplement (itor : List Frame) (name : Str) : Except KvError (Command S) := do
  let args ← bulkArguments (itor.drop 1)
  return .unimplement ⟨name, args⟩

def parseEvalKeys : Nat → List Frame → Except KvError (List Str × List Frame)
  | 0, itor => .ok ([], itor)
  | _ + 1, [] => protocolError "Not enough keys provided"
  | n + 1, frame :: itor => do
      let key ← extractBulkString (some frame)
      let (keys, rest) ← parseEvalKeys n itor
      return (key :: keys, rest)

def parseEval (itor : List Frame) : Except KvError (Command S) := do
  let script ← extractBulkString itor.head?
  let numkeysStr ← extractBulkString itor.tail.head?
  match parseUsize numkeysStr.bytes with
  | .error _ => protocolError "numkeys must be an integer"
  | .ok numkeys =>
      let (keys, rest) ← parseEvalKeys numkeys itor.tail.tail
      let args ← extractAllStrings rest
      return .eval ⟨script, keys, args⟩

def guardArity (bad : Bool) (text : String) (parse : Except KvError (Command S)) :
    Except KvError (Command S) :=
  if bad then protocolError text else parse

def dispatch (name : Str) (length : Nat) (iter : List Frame) : Except KvError (Command S) :=
  if name.bytes = ascii ['G', 'E', 'T'] then
    guardArity (length ≠ 2) "GET 命令需要 1 个参数" (parseGet iter)
  else if name.bytes = ascii ['S', 'E', 'T'] then
    guardArity (length < 3) "frame is too short" (parseSet iter)
  else if name.bytes = ascii ['M', 'S', 'E', 'T'] then
    guardArity (length < 3 || length % 2 = 0) "MSET 命令参数错误" (parseMSet iter)
  else if name.bytes = ascii ['M', 'G', 'E', 'T'] then
    guardArity (length < 2) "MGET 命令至少需要 1 个参数" (parseMGet iter)
  else if name.bytes = ascii ['L', 'P', 'U', 'S', 'H'] then
    guardArity (length < 3) "LPUSH 命令需要至少 2 个参数" (parseLPush iter)
  else if name.bytes = ascii ['L', 'P', 'O', 'P'] then
    guardArity (length ≠ 2) "LPOP 命令需要 1 个参数" (parseLPop iter)
  else if name.bytes = ascii ['B', 'L', 'P', 'O', 'P'] then
    guardArity (length ≠ 3) "BLPOP 命令需要 2 个参数" (parseBLPop iter)
  else if name.bytes = ascii ['H', 'S', 'E', 'T'] then
    guardArity (length < 4 || length % 2 ≠ 0) "HSET 命令参数错误" (parseHSet iter)
  else if name.bytes = ascii ['H', 'G', 'E', 'T'] then
    guardArity (length ≠ 3) "HGET 命令需要 2 个参数" (parseHGet iter)
  else if name.bytes = ascii ['H', 'D', 'E', 'L'] then
    guardArity (length < 3) "HDEL 命令需要至少 2 个参数" (parseHDel iter)
  else if name.bytes = ascii ['J', 'S', 'O', 'N', '.', 'S', 'E', 'T'] then
    guardArity (length ≠ 4) "JSON.SET 命令需要 3 个参数" (parseJsonSet iter)
  else if name.bytes = ascii ['J', 'S', 'O', 'N', '.', 'G', 'E', 'T'] then
    guardArity (length ≠ 3) "JSON.GET 命令需要 2 个参数" (parseJsonGet iter)
  else if name.bytes = ascii ['Z', 'A', 'D', 'D'] then
    guardArity (length ≠ 4) "ZADD 命令需要 3 个参数" (parseZAdd iter)
  else if name.bytes = ascii ['Z', 'S', 'C', 'O', 'R', 'E'] then
    guardArity (length ≠ 3) "ZSCORE 命令需要 2 个参数" (parseZScore iter)
  else if name.bytes = ascii ['Z', 'R', 'A', 'N', 'K'] then
    guardArity (length ≠ 3) "ZRANK 命令需要 2 个参数" (parseZRank iter)
  else if name.bytes = ascii ['Z', 'R', 'A', 'N', 'G', 'E'] then
    guardArity (length ≠ 4) "ZRANGE 命令需要 3 个参数" (parseZRange iter)
  else if name.bytes = ascii ['Z', 'R', 'E', 'M'] then
    guardArity (length ≠ 3) "ZREM 命令需要 2 个参数" (parseZRem iter)
  else if name.bytes = ascii ['P', 'I', 'N', 'G'] then parsePing iter
  else if name.bytes = ascii ['M', 'U', 'L', 'T', 'I'] then .ok .multi
  else if name.bytes = ascii ['E', 'X', 'E', 'C'] then .ok .exec
  else if name.bytes = ascii ['E', 'V', 'A', 'L'] then parseEval iter
  else parseUnimplement iter name

def tryFrom (frame : Frame) : Except KvError (Command S) :=
  match frame with
  | .array [] => protocolError "frame is empty"
  | .array (.bulk start :: iter) =>
      match fromUtf8 start with
      | .error _ => protocolError "zhuan huan yi chang "
      | .ok s => dispatch (Host.toUppercase s) (iter.length + 1) iter
  | .array (_ :: _) => protocolError "not a command"
  | _ => protocolError "must be a array from frame"

end RustKv.CommandParser
