import RustKv.AofRoundTrip
import RustKv.Executor

namespace RustKv.Recovery

open Text Protocol Domain FrameParser CommandParser Zset RustKv.Types Executor

variable {S J : Type} [Host] [F64 S] [SerdeJson J]

inductive AofError
  | kv (e : KvError)
  | text (s : String)
  deriving DecidableEq, Repr

/-- What recovery has built: the database, the commands of an open transaction,
and the commands it has executed, in order. -/
structure Recovered (S J : Type) where
  db : Db (Value S J)
  transactionBuffer : Option (List (Command S))
  executed : List (Command S)

def start (db : Db (Value S J)) : Recovered S J := ⟨db, none, []⟩

/-- The n-th command that recovery executes finds the runtime `rts n`; the cached
clock still reads zero. -/
def executeCommand (rts : Nat → Runtime) (r : Recovered S J) (c : Command S) :
    Except AofError (Recovered S J) :=
  match execute (rts r.executed.length) 0 r.db c with
  | (⟨.ok _, _, _⟩, db) => .ok { r with db := db, executed := r.executed ++ [c] }
  | (⟨.error e, _, _⟩, _) => .error (.kv e)

def executeAll (rts : Nat → Runtime) (r : Recovered S J) :
    List (Command S) → Except AofError (Recovered S J)
  | [] => .ok r
  | c :: cs =>
      match executeCommand rts r c with
      | .ok r => executeAll rts r cs
      | .error e => .error e

def replayCommand (rts : Nat → Runtime) (r : Recovered S J) :
    Command S → Except AofError (Recovered S J)
  | .multi => .ok { r with transactionBuffer := some [] }
  | .exec =>
      match r.transactionBuffer with
      | some cmds => executeAll rts { r with transactionBuffer := none } cmds
      | none => .ok r
  | c =>
      match r.transactionBuffer with
      | some buffer => .ok { r with transactionBuffer := some (buffer ++ [c]) }
      | none => executeCommand rts r c

def replayFrame (rts : Nat → Runtime) (r : Recovered S J) (f : Frame) :
    Except AofError (Recovered S J) :=
  match tryFrom f with
  | .ok c => replayCommand rts r c
  | .error e => .error (.kv e)

/-- The inner loop: what it leaves unread, if it stops at an incomplete frame,
and how many frames it replayed. Every round uses up a byte, so `fuel` may be the
length of the data. -/
def drain (rts : Nat → Runtime) :
    Nat → Recovered S J → Bytes → Nat → Except AofError (Recovered S J × Option Bytes × Nat)
  | 0, r, _, execTime => .ok (r, none, execTime)
  | fuel + 1, r, data, execTime =>
      if data = [] then .ok (r, none, execTime)
      else
        match parseFrame data with
        | .ok (some (f, frameSize)) =>
            match replayFrame rts r f with
            | .ok r => drain rts fuel r (data.drop frameSize) (execTime + 1)
            | .error e => .error e
        | .ok none => .ok (r, some data, execTime)
        | .error e => .error (.kv e)

/-- The outer loop. `rest` is what the file still holds, `tail` the first
tail_file_length bytes of the buffer, and `reads` what the calls of read return;
a list that read cannot return gives none. -/
def readLoop (rts : Nat → Runtime) (capacity : Nat) :
    Bytes → Recovered S J → Bytes → List Nat → Option (Except AofError (Recovered S J × Bytes))
  | rest, r, tail, [] =>
      if tail.length = capacity then some (.error (.text "严重错误：单条命令大小超过了 512MB 的物理缓冲上限！"))
      else if rest = [] then some (.ok (r, tail))
      else none
  | rest, r, tail, n :: reads =>
      if tail.length = capacity then some (.error (.text "严重错误：单条命令大小超过了 512MB 的物理缓冲上限！"))
      else if 0 < n ∧ n ≤ capacity - tail.length ∧ n ≤ rest.length then
        let data := tail ++ rest.take n
        match drain rts data.length r data 0 with
        | .ok (r, none, _) => readLoop rts capacity (rest.drop n) r tail reads
        | .ok (r, some left, execTime) =>
            if execTime = 0 then some (.error (.text "字符串文件过大 大于512M"))
            else readLoop rts capacity (rest.drop n) r left reads
        | .error e => some (.error e)
      else none

/-- Recovery from the bytes of a file, and the bytes the file has afterwards. -/
def explainExecuteAofcommand (rts : Nat → Runtime) (capacity : Nat) (file : Bytes) (reads : List Nat)
    (db : Db (Value S J)) : Option (Except AofError (Recovered S J × Bytes)) :=
  (readLoop rts capacity file (start db) [] reads).map (fun result =>
    match result with
    | .ok (r, tail) => .ok (r, if 0 < tail.length then file.take (file.length - tail.length) else file)
    | .error e => .error e)

/-- The sizes of the reads when one call of read returns the whole file. -/
def atOnce (file : Bytes) : List Nat := if file = [] then [] else [file.length]

def replayFrames (rts : Nat → Runtime) (r : Recovered S J) :
    List Frame → Except AofError (Recovered S J)
  | [] => .ok r
  | f :: fs =>
      match replayFrame rts r f with
      | .ok r => replayFrames rts r fs
      | .error e => .error e

end RustKv.Recovery
