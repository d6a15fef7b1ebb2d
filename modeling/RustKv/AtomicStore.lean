import RustKv.Isolation
import RustKv.StoreRefinement

namespace RustKv.Isolation

open Text Protocol Domain RustKv.Types Executor Lua Abstract Traces

variable {I S J : Type} [Host]

section Scripts

/-- What a script has written at each key; `none` is a key that it has not written. -/
abbrev Held (S J : Type) := Str → Option (Option (Item S J))

def within (keys : List Str) (m : Keyspace S J) : Keyspace S J := fun k =>
  if (shardIndices keys).contains (Host.shardIndex k) then m k else none

def Held.view (held : Held S J) (m : Keyspace S J) (time : Nat) : Keyspace S J := fun k =>
  (held k).getD (live time (m k))

def Held.over (held : Held S J) (m : Keyspace S J) : Keyspace S J := fun k => (held k).getD (m k)

variable [LinearOrder S] [F64 S] [SerdeJson J]

/-- A call of a script at one of the times that the clock has shown. What the call leaves at a
key stays there for the script. A key that it leaves as it was may go on to be live or not. -/
inductive Turn (m : Keyspace S J) (keys : List Str) (clock : List Nat) :
    Script × Held S J → Script × Held S J → Prop
  | call {c : Call} {next : Except LuaError Frame → Script} {held held' : Held S J} {time : Nat}
      {result : Except LuaError Frame} {logged logged' : List (Command S)} {after : Keyspace S J}
      (htime : time ∈ clock)
      (hcall : (held.view m time).redisCall (scriptAt keys time) logged c = (result, logged', after))
      (hheld : ∀ k, held' k = some (after k) ∨
        (held k = none ∧ held' k = none ∧ after k = held.view m time k)) :
      Turn m keys clock (.call c next, held) (next result, held')

theorem Turn.mono {m : Keyspace S J} {keys : List Str} {clock clock' : List Nat}
    {s s' : Script × Held S J} (h : Turn m keys clock s s') (hclock : clock ⊆ clock') :
    Turn m keys clock' s s' := by
  cases h with
  | call htime hcall hheld => exact .call (hclock htime) hcall hheld

end Scripts

/-- What a client of an atomic store is doing. A request has come at a time and seen the
clock show others since, or it has its answer, which the client has yet to get. -/
inductive Status (S : Type)
  | idle
  | asked (request : Request S) (started : Nat) (clock : List Nat)
  | answered (request : Request S) (reply : Except KvError Frame)

def Status.tick (now : Nat) : Status S → Status S
  | .asked request started clock => .asked request started (now :: clock)
  | s => s

structure Atomic (I S J : Type) where
  data : Keyspace S J
  now : Nat
  clients : I → Status S

/-- What is seen from outside: requests, answers, the clock, the calls that scripts make,
and what the background tasks do. -/
inductive Event (I S : Type)
  | start (i : I) (request : Request S)
  | reply (i : I) (request : Request S) (reply : Except KvError Frame)
  | tick (now : Nat)
  | call (c : Call)
  | evictionTtl
  | evictionMemory
  | nothing

section Steps

variable [DecidableEq I] [LinearOrder S] [F64 S] [SerdeJson J]

def Atomic.set (a : Atomic I S J) (i : I) (s : Status S) : Atomic I S J :=
  { a with clients := Function.update a.clients i s }

/-- What takes effect between two events: a request, from its first access to its last at
once. Of a script that fails only items that were over are gone. -/
inductive Atomic.Effect : Atomic I S J → Atomic I S J → Prop
  | command {a : Atomic I S J} {i : I} {c : Command S} {started : Nat} {clock : List Nat} {done : Done S}
      {data : Keyspace S J} (h : a.clients i = .asked (.command c) started clock)
      (hdone : a.data.execute (settingAt (fun _ => none) a.now started) LPushCommand.values c = (done, data)) :
      Effect a { a.set i (.answered (.command c) done.reply) with data := data }
  | script {a : Atomic I S J} {i : I} {keys : List Str} {script : Script} {started : Nat} {clock : List Nat}
      {frame : Frame} {held : Held S J} (h : a.clients i = .asked (.eval keys script) started clock)
      (hrun : Relation.ReflTransGen (Turn (within keys a.data) keys clock) (script, fun _ => none)
        (.ret frame, held)) :
      Effect a { a.set i (.answered (.eval keys script) (.ok frame)) with data := held.over a.data }
  | fail {a : Atomic I S J} {i : I} {keys : List Str} {script : Script} {started : Nat} {clock : List Nat}
      {text : String} {held : Held S J} {data : Keyspace S J}
      (h : a.clients i = .asked (.eval keys script) started clock)
      (hrun : Relation.ReflTransGen (Turn (within keys a.data) keys clock) (script, fun _ => none)
        (.fail text, held))
      (hdata : ∀ k, data k = a.data k ∨ (data k = none ∧ ∃ time ∈ clock, live time (a.data k) = none)) :
      Effect a { a.set i (.answered (.eval keys script) (.error (scriptError text))) with data := data }

inductive Atomic.Show : Atomic I S J → Event I S → Atomic I S J → Prop
  | start {a : Atomic I S J} {i : I} {request : Request S} (h : a.clients i = .idle) :
      Show a (.start i request) (a.set i (.asked request a.now [a.now]))
  | reply {a : Atomic I S J} {i : I} {request : Request S} {reply : Except KvError Frame}
      (h : a.clients i = .answered request reply) : Show a (.reply i request reply) (a.set i .idle)
  | tick {a : Atomic I S J} (now : Nat) :
      Show a (.tick now) { a with now := now, clients := fun i => (a.clients i).tick now }
  | call {a : Atomic I S J} (c : Call) : Show a (.call c) a
  | evictionTtl {a : Atomic I S J} {data : Keyspace S J} (h : Sweeps a.now a.data data) :
      Show a .evictionTtl { a with data := data }
  | evictionMemory {a : Atomic I S J} (gone : Option Str) :
      Show a .evictionMemory { a with data := fun k => if gone = some k then none else a.data k }
  | nothing {a : Atomic I S J} : Show a .nothing a

def Atomic.Step : Atomic I S J → Event I S → Atomic I S J → Prop := Weak Atomic.Effect Atomic.Show

end Steps

end RustKv.Isolation
