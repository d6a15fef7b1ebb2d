import Mathlib.Data.List.Infix
import RustKv.FrameParser
import RustKv.CommandParser

namespace RustKv.Connection

open Text Protocol Domain FrameParser CommandParser

/-- U+FFFD. -/
def replacement : Bytes := [0xEF, 0xBF, 0xBD]

/-- The text of String::from_utf8_lossy: every ill-formed sequence is replaced.
Every round uses up a byte, so `fuel` may be the length. -/
def lossyFrom : Nat → Bytes → Bytes
  | 0, _ => []
  | fuel + 1, b =>
      match utf8Error b with
      | none => b
      | some e =>
          b.take e.validUpTo ++ replacement ++
            match e.errorLen with
            | some n => lossyFrom fuel (b.drop (e.validUpTo + n))
            | none => []

def fromUtf8Lossy (b : Bytes) : Bytes := lossyFrom b.length b

def upperPsync : Bytes := ascii ['P', 'S', 'Y', 'N', 'C']

def lowerPsync : Bytes := ascii ['p', 's', 'y', 'n', 'c']

def isPsyncRequest (buf : Bytes) : Bool :=
  let s := fromUtf8Lossy buf
  decide (upperPsync <:+: s) || decide (lowerPsync <:+: s)

inductive ConnectionEvent
  | gotData (chunk : Bytes)
  | shutdown
  | clientClosed

/-- What a connection is doing: serving requests, feeding a replica, or nothing
any more. -/
inductive Phase
  | serving
  | replicating
  | closed
  deriving DecidableEq, Repr

variable {W S : Type}

/-- The buffer of a connection, the state its commands work on, the commands it
has executed, and the replies it has sent. -/
structure Conn (W S : Type) where
  buf : Bytes
  state : W
  executed : List (Command S)
  written : List Bytes
  phase : Phase

def Conn.new (state : W) : Conn W S := ⟨[], state, [], [], .serving⟩

/-- The variables of the loop over the requests of a buffer. -/
structure Batch (W S : Type) where
  vec : Bytes
  totalSize : Nat
  vecResult : List Bytes
  executed : List (Command S)
  state : W

variable [Host] [F64 S]

/-- The loop over the requests of `buf`, with what it leaves in the buffer.
`exec` is execute_command_normal, with all it depends on in the state. Every round
uses up a byte, so `fuel` may be the length of the buffer. -/
def explainLoop (exec : W → Command S → Except KvError Frame × W) (buf : Bytes) :
    Nat → Batch W S → Except KvError (List Bytes) × Bytes × Batch W S
  | 0, b => (.ok b.vecResult, buf.drop b.totalSize, b)
  | fuel + 1, b =>
      match parseFrame b.vec with
      | .ok (some (frame, size)) =>
          match tryFrom frame with
          | .ok command =>
              match exec b.state command with
              | (.ok result, state) => explainLoop exec buf fuel {
                  vec := b.vec.drop size
                  totalSize := b.totalSize + size
                  vecResult := b.vecResult ++ [serialize result]
                  executed := b.executed ++ [command]
                  state := state }
              | (.error e, state) =>
                  (.error e, buf, { b with executed := b.executed ++ [command], state := state })
          | .error e => (.error e, buf.drop b.totalSize, b)
      | .ok none => (.ok b.vecResult, buf.drop b.totalSize, b)
      | .error e => (.error e, buf.drop b.totalSize, b)

def explainExecuteCommand (exec : W → Command S → Except KvError Frame × W) (buf : Bytes) (state : W) :
    Except KvError (List Bytes) × Bytes × Batch W S :=
  explainLoop exec buf buf.length ⟨buf, 0, [], [], state⟩

def errorReply (e : KvError) : Bytes := serialize (.error (utf8 e.text))

/-- One round of the connection loop. -/
def Conn.handle (exec : W → Command S → Except KvError Frame × W) (c : Conn W S) :
    ConnectionEvent → Conn W S
  | .gotData chunk =>
      let buf := c.buf ++ chunk
      if isPsyncRequest buf then { c with buf := buf, phase := .replicating }
      else
        match explainExecuteCommand exec buf c.state with
        | (.ok result, buf, b) =>
            { c with
              buf := buf
              state := b.state
              executed := c.executed ++ b.executed
              written := c.written ++ result }
        | (.error e, _, b) =>
            { c with
              buf := []
              state := b.state
              executed := c.executed ++ b.executed
              written := c.written ++ [errorReply e] }
  | .shutdown => { c with phase := .closed }
  | .clientClosed => { c with phase := .closed }

def handleConnection (exec : W → Command S → Except KvError Frame × W) :
    Conn W S → List ConnectionEvent → Conn W S
  | c, [] => c
  | c, event :: events =>
      match c.phase with
      | .serving => handleConnection exec (c.handle exec event) events
      | _ => c

end RustKv.Connection
